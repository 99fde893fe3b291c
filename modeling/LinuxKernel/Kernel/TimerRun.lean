/-
  Every timer fires on its tick (`kernel/timer.c`).

  1. **Unbounded time** — jiffies wrap, so a run is observed with a counter `now` of the ticks that does not:
     `timer_jiffies` is `now` modulo the word size, and an arming has a DUE tick `δ` (`dueTick`).

  2. **Places** — a timer on `tv1` is due within the next `TVR_SIZE` ticks, on the list of its tick.  A timer
     on a list of a higher vector waits for the tick `c ≤ δ` at which that list is cascaded (`PlacedAt`).
     This is all that is needed: it does not matter at which distance a timer was put on which vector,
     nor that a timeout beyond the wheel is cut down to the largest one.

  3. **Ticks** — before the list of tick `now` is taken, the cascades bring down every timer that waits for
     this tick (`cascadeTimers_ok`), so exactly the timers that are due are on that list.

  4. **History** — the run records when timers are armed, cancelled and called; `dueOf` is what is still
     outstanding.
-/
import LinuxKernel.Base.Run
import LinuxKernel.Kernel.Timer

namespace LinuxKernel.Timer

open Function List
variable {T : Type} (g : Geometry)

/-! ## Words and ticks -/

theorem bits_zero : g.bits 0 = g.tvrBits := by simp [Geometry.bits]

theorem bits_succ (n : Nat) : g.bits (n + 1) = g.bits n + g.tvnBits := by
  simp [Geometry.bits, Nat.add_mul, Nat.add_assoc]

theorem bits_mono {m n : Nat} (h : m ≤ n) : g.bits m ≤ g.bits n :=
    Nat.add_le_add_left (Nat.mul_le_mul_right _ h) _

/-- All vectors together cover at most 32 bits. -/
theorem bits_lt {n : Nat} (h : n < 4) : g.bits n + g.tvnBits ≤ 32 := by
  have hle := bits_mono g (show n + 1 ≤ 4 by omega)
  rw [bits_succ] at hle
  have h4 : g.bits 4 = g.tvrBits + 4 * g.tvnBits := rfl
  have := g.fits
  omega

theorem tvr_le : g.tvrBits ≤ g.w := by
  have := g.fits
  have := g.wide
  omega

/-- Ticks that are no more than a word apart can be told apart by their words. -/
theorem sub_eq {now δ : Nat} (h : now ≤ δ) (hlt : δ - now < 2 ^ g.w) :
    g.sub (δ % 2 ^ g.w) (now % 2 ^ g.w) = δ - now := by
  obtain ⟨d, rfl⟩ := Nat.exists_eq_add_of_le h
  rw [Nat.add_sub_cancel_left] at hlt ⊢
  rw [Geometry.sub, ← Nat.mod_add_mod now (2 ^ g.w) d]
  have hr : now % 2 ^ g.w < 2 ^ g.w := Nat.mod_lt _ (Nat.two_pow_pos _)
  generalize now % 2 ^ g.w = r at *
  by_cases hlt' : r + d < 2 ^ g.w
  · rw [Nat.mod_eq_of_lt hlt', show r + d + (2 ^ g.w - r) = d + 2 ^ g.w by omega, Nat.add_mod_right,
      Nat.mod_eq_of_lt hlt]
  · have hwrap : (r + d) % 2 ^ g.w = r + d - 2 ^ g.w := by
      rw [Nat.mod_eq_sub_mod (by omega), Nat.mod_eq_of_lt (by omega)]
    rw [hwrap, show r + d - 2 ^ g.w + (2 ^ g.w - r) = d by omega, Nat.mod_eq_of_lt hlt]

/-- The distance leads back to the word. -/
theorem add_sub_mod (now : Nat) {e : Nat} (he : e < 2 ^ g.w) :
    (now + g.sub e (now % 2 ^ g.w)) % 2 ^ g.w = e := by
  have hr : now % 2 ^ g.w < 2 ^ g.w := Nat.mod_lt _ (Nat.two_pow_pos _)
  rw [Geometry.sub, Nat.add_mod_mod, ← Nat.mod_add_mod]
  generalize now % 2 ^ g.w = r at *
  rw [show r + (e + (2 ^ g.w - r)) = e + 2 ^ g.w by omega, Nat.add_mod_right, Nat.mod_eq_of_lt he]

/-- The index into a vector depends on bits of the word only. -/
theorem index_mod {b n w : Nat} (h : b + n ≤ w) (x : Nat) :
    x % 2 ^ w / 2 ^ b % 2 ^ n = x / 2 ^ b % 2 ^ n := by
  have hw : 2 ^ w = 2 ^ b * 2 ^ (w - b) := by rw [← Nat.pow_add]; congr 1; omega
  rw [hw, Nat.mod_mul_right_div_self]
  exact Nat.mod_mod_of_dvd _ (Nat.pow_dvd_pow 2 (by omega))

theorem mod_tvr (x : Nat) : x % 2 ^ g.w % 2 ^ g.tvrBits = x % 2 ^ g.tvrBits :=
  Nat.mod_mod_of_dvd _ (Nat.pow_dvd_pow 2 (tvr_le g))

/-- The tick at which a timer that is queued now for `expires` is due: the tick with that number, or
    the next tick if that is in the past. -/
def dueTick (now timerJiffies expires : Nat) : Nat :=
  if g.negative (g.sub expires timerJiffies) then now else now + g.sub expires timerJiffies

/-! ## Places -/

/-- A timer that is due at `δ` is in this place, where the lists of vector `n` that are to be cascaded
    before `lo n` have been. -/
def PlacedAt (lo : Nat → Nat) (now : Nat) (δ expires : Nat) : Slot → Prop
  | .tv1 i => now ≤ δ ∧ δ < now + 2 ^ g.tvrBits ∧ δ % 2 ^ g.tvrBits = i
  | .tvn n i => n < 4 ∧ expires = δ % 2 ^ g.w ∧ δ < now + 2 ^ (g.w - 1) ∧
      ∃ c, lo n ≤ c ∧ c ≤ δ ∧ c % 2 ^ g.bits n = 0 ∧ c / 2 ^ g.bits n % 2 ^ g.tvnBits = i

/-- The list of tick `d` on vector `n` is cascaded after `now` and not after `d`. -/
theorem cascade_tick {now d b : Nat} (h : now + 2 ^ b ≤ d) :
    now + 1 ≤ d / 2 ^ b * 2 ^ b ∧ d / 2 ^ b * 2 ^ b ≤ d ∧ d / 2 ^ b * 2 ^ b % 2 ^ b = 0 ∧
      d / 2 ^ b * 2 ^ b / 2 ^ b = d / 2 ^ b := by
  have hp : 0 < 2 ^ b := Nat.two_pow_pos _
  refine ⟨?_, Nat.div_mul_le_self .., Nat.mul_mod_left .., Nat.mul_div_cancel _ hp⟩
  have h₁ := Nat.div_add_mod d (2 ^ b)
  rw [Nat.mul_comm] at h₁
  omega

/-- **`internal_add_timer`** puts a timer that is not in the past in a place from which it will come down in
    time. -/
theorem placedAt_slotFor {now δ : Nat} {lo : Nat → Nat} (hlo : ∀ n, lo n ≤ now + 1) (h : now ≤ δ)
    (hlt : δ < now + 2 ^ (g.w - 1)) :
    PlacedAt g lo now δ (δ % 2 ^ g.w) (slotFor g (now % 2 ^ g.w) (δ % 2 ^ g.w)) := by
  have hhalf : 2 ^ (g.w - 1) ≤ 2 ^ g.w := Nat.pow_le_pow_right (by omega) (by omega)
  have hidx := sub_eq g h (by omega)
  have hwide := g.wide
  -- vector `n`, for a tick `d` that is far enough away
  have hvec : ∀ n d, n < 4 → now + 2 ^ g.bits n ≤ d → d ≤ δ →
      PlacedAt g lo now δ (δ % 2 ^ g.w) (.tvn n (d % 2 ^ g.w / 2 ^ g.bits n % 2 ^ g.tvnBits)) := by
    intro n d hn hd hle
    have hb := bits_lt g hn
    obtain ⟨h₁, h₂, h₃, h₄⟩ := cascade_tick hd
    refine ⟨hn, rfl, hlt, _, Nat.le_trans (hlo n) h₁, Nat.le_trans h₂ hle, h₃, ?_⟩
    rw [h₄, index_mod (by omega)]
  unfold slotFor
  simp only [hidx]
  split_ifs with h1 h2 h3 h4 h5 h6
  · exact ⟨h, by omega, (mod_tvr g δ).symm⟩
  · exact hvec 0 δ (by omega) (by rw [bits_zero]; omega) (Nat.le_refl _)
  · exact hvec 1 δ (by omega) (by omega) (Nat.le_refl _)
  · exact hvec 2 δ (by omega) (by omega) (Nat.le_refl _)
  · simp only [Geometry.negative, decide_eq_true_eq] at h5
    omega
  · -- the largest timeout
    have hpow : 2 ^ g.bits 3 ≤ 2 ^ 31 :=
      Nat.pow_le_pow_right (by omega) (by have := bits_lt g (show 3 < 4 by omega); have := g.tvn_pos; omega)
    rw [Nat.add_mod_mod]
    exact hvec 3 (0xffffffff + now) (by omega) (by omega) (by omega)
  · exact hvec 3 δ (by omega) (by omega) (Nat.le_refl _)

/-- A timer that is in the past goes on the list of the next tick. -/
theorem slotFor_past {now e : Nat} (h : g.negative (g.sub e (now % 2 ^ g.w)) = true) :
    slotFor g (now % 2 ^ g.w) e = .tv1 (now % 2 ^ g.tvrBits) := by
  have hpow : ∀ b, b ≤ 31 → 2 ^ b ≤ 2 ^ (g.w - 1) := fun b hb =>
    Nat.pow_le_pow_right (by omega) (by have := g.wide; omega)
  have hfit := g.fits
  have hpos := g.tvn_pos
  have h' : 2 ^ (g.w - 1) ≤ g.sub e (now % 2 ^ g.w) := by simpa [Geometry.negative] using h
  have hr := hpow g.tvrBits (by omega)
  have h1 := hpow (g.bits 1) (by simp only [Geometry.bits]; omega)
  have h2 := hpow (g.bits 2) (by simp only [Geometry.bits]; omega)
  have h3 := hpow (g.bits 3) (by simp only [Geometry.bits]; omega)
  unfold slotFor
  rw [if_neg (by omega), if_neg (by omega), if_neg (by omega), if_neg (by omega), if_pos h, mod_tvr]

/-! ## The invariant -/

/-- The timers on the `work_list`. -/
def onWork (s : Wheel T) : List T := s.work.getD []

/-- **The invariant**, when `due` says which timers are armed and for which tick, and the timers
    `held` have been taken off their lists and are about to be added again. -/
structure WheelOk (lo : Nat → Nat) (now : Nat) (due : T → Option Nat) (held : List T) (s : Wheel T) :
    Prop where
  clock : s.timerJiffies = now % 2 ^ g.w
  bins : Bins.Exclusive s.vec
  placed : ∀ slot t, t ∈ s.vec slot → ∃ δ, due t = some δ ∧ PlacedAt g lo now δ (s.timers t).expires slot
  work : (onWork s).Nodup ∧ ∀ t ∈ onWork s, (∀ slot, t ∉ s.vec slot) ∧ ∃ δ, due t = some δ ∧ δ + 1 = now
  loose : held.Nodup ∧ ∀ t ∈ held, (∀ slot, t ∉ s.vec slot) ∧ t ∉ onWork s ∧
    ∃ δ, due t = some δ ∧ (s.timers t).expires = δ % 2 ^ g.w ∧ now ≤ δ ∧ δ < now + 2 ^ (g.w - 1)
  listed : ∀ t δ, due t = some δ → (∃ slot, t ∈ s.vec slot) ∨ t ∈ onWork s ∨ t ∈ held

variable {g} {lo lo' : Nat → Nat} {now : Nat} {due : T → Option Nat} {s : Wheel T}

theorem PlacedAt.mono {δ e : Nat} {slot : Slot} (h : PlacedAt g lo now δ e slot)
    (hlo : ∀ n i, slot = .tvn n i → lo' n ≤ lo n) : PlacedAt g lo' now δ e slot := by
  cases slot with
  | tv1 i => exact h
  | tvn n i =>
    obtain ⟨h₁, h₂, h₃, c, h₄, h₅⟩ := h
    exact ⟨h₁, h₂, h₃, c, Nat.le_trans (hlo n i rfl) h₄, h₅⟩

/-- The next loose timer is added. -/
theorem internalAddTimer_ok {t : T} {rest : List T} (hlo : ∀ n, lo n ≤ now + 1)
    (h : WheelOk g lo now due (t :: rest) s) : WheelOk g lo now due rest (internalAddTimer g s t) := by
  obtain ⟨hnd, hloose⟩ := h.loose
  obtain ⟨hvec, hwork, δ, hδ, he, hle, hlt⟩ := hloose t (mem_cons_self ..)
  rw [nodup_cons] at hnd
  have hslot : PlacedAt g lo now δ (s.timers t).expires (slotFor g s.timerJiffies (s.timers t).expires) := by
    rw [h.clock, he]
    exact placedAt_slotFor g hlo hle hlt
  refine ⟨h.clock, h.bins.add hvec _, fun slot x hx => ?_, ⟨h.work.1, fun x hx => ?_⟩,
    ⟨hnd.2, fun x hx => ?_⟩, fun x δ' hx => ?_⟩
  · rcases Bins.mem_add.mp hx with hx | ⟨rfl, rfl⟩
    · exact h.placed slot x hx
    · exact ⟨δ, hδ, hslot⟩
  · obtain ⟨h₁, h₂⟩ := h.work.2 x hx
    refine ⟨fun slot hm => ?_, h₂⟩
    rcases Bins.mem_add.mp hm with hm | ⟨rfl, _⟩
    · exact h₁ slot hm
    · exact hwork hx
  · obtain ⟨h₁, h₂⟩ := hloose x (mem_cons_of_mem t hx)
    refine ⟨fun slot hm => ?_, h₂⟩
    rcases Bins.mem_add.mp hm with hm | ⟨rfl, _⟩
    · exact h₁ slot hm
    · exact hnd.1 hx
  · rcases h.listed x δ' hx with ⟨slot, hm⟩ | hm | hm
    · exact .inl ⟨slot, Bins.mem_add.mpr (.inl hm)⟩
    · exact .inr (.inl hm)
    · rcases mem_cons.mp hm with rfl | hm
      · exact .inl ⟨_, Bins.mem_add.mpr (.inr ⟨rfl, rfl⟩)⟩
      · exact .inr (.inr hm)

theorem foldl_internalAddTimer_ok (hlo : ∀ n, lo n ≤ now + 1) (l : List T) : ∀ (s : Wheel T),
    WheelOk g lo now due l s → WheelOk g lo now due [] (l.foldl (internalAddTimer g) s) := by
  induction l with
  | nil => intro s h; exact h
  | cons t l ih => intro s h; exact ih _ (internalAddTimer_ok hlo h)

/-! ## A tick -/

/-- The cascades up to vector `k` have been made at this tick. -/
def after (now k n : Nat) : Nat := if n < k then now + 1 else now

theorem after_le (now k n : Nat) : after now k n ≤ now + 1 := by
  unfold after
  split <;> omega

/-- **One cascade**, at a tick at which the lists of vector `k` come down. -/
theorem cascade_ok {k : Nat} (h : WheelOk g (after now k) now due [] s) (hk : now % 2 ^ g.bits k = 0) :
    WheelOk g (after now (k + 1)) now due [] (cascade g s k (now / 2 ^ g.bits k % 2 ^ g.tvnBits)) := by
  refine foldl_internalAddTimer_ok (after_le now (k + 1)) _ _ ?_
  generalize hi : now / 2 ^ g.bits k % 2 ^ g.tvnBits = i
  refine ⟨h.clock, h.bins.take _, fun slot t ht => ?_, ⟨h.work.1, fun t ht => ?_⟩,
    ⟨h.bins.nodup _, fun t ht => ?_⟩, fun t δ hδ => ?_⟩
  · -- what stays on vector `k` waits for a later tick
    obtain ⟨ht, hne⟩ := Bins.mem_take.mp ht
    obtain ⟨δ, hδ, hp⟩ := h.placed slot t ht
    refine ⟨δ, hδ, ?_⟩
    cases slot with
    | tv1 j => exact hp
    | tvn n j =>
      obtain ⟨hn, he, hlt, c, hc, hcδ, hc0, hcj⟩ := hp
      refine ⟨hn, he, hlt, c, ?_, hcδ, hc0, hcj⟩
      unfold after at hc ⊢
      by_cases hnk : n = k
      · subst hnk
        have hcn : c ≠ now := fun e => hne (by rw [← hi, ← hcj, e])
        rw [if_neg (by omega)] at hc
        rw [if_pos (by omega)]
        omega
      · split at hc <;> split <;> omega
  · obtain ⟨h₁, h₂⟩ := h.work.2 t ht
    exact ⟨fun slot hm => h₁ slot (Bins.mem_take.mp hm).1, h₂⟩
  · obtain ⟨δ, hδ, hn, he, hlt, c, hc, hcδ, _⟩ := h.placed _ t ht
    refine ⟨h.bins.not_mem_take ht, fun hw => (h.work.2 t hw).1 _ ht, δ, hδ, he, ?_, hlt⟩
    unfold after at hc
    split at hc <;> omega
  · rcases h.listed t δ hδ with ⟨slot, hm⟩ | hm | hm
    · by_cases hs : slot = .tvn k i
      · exact .inr (.inr (hs ▸ hm))
      · exact .inl ⟨slot, Bins.mem_take.mpr ⟨hm, hs⟩⟩
    · exact .inr (.inl hm)
    · nomatch hm

/-- If the lists of vector `k` do not come down at this tick, none of a higher vector do. -/
theorem after_all {k : Nat} (h : WheelOk g (after now k) now due [] s) (hk : now % 2 ^ g.bits k ≠ 0) :
    WheelOk g (fun _ => now + 1) now due [] s := by
  refine { h with placed := fun slot t ht => ?_ }
  obtain ⟨δ, hδ, hp⟩ := h.placed slot t ht
  refine ⟨δ, hδ, ?_⟩
  cases slot with
  | tv1 j => exact hp
  | tvn n j =>
    obtain ⟨hn, he, hlt, c, hc, hcδ, hc0, hcj⟩ := hp
    refine ⟨hn, he, hlt, c, ?_, hcδ, hc0, hcj⟩
    unfold after at hc
    split at hc
    · exact hc
    · have hcn : c ≠ now := by
        rintro rfl
        refine hk (Nat.mod_eq_zero_of_dvd (Nat.dvd_trans ?_ (Nat.dvd_of_mod_eq_zero hc0)))
        exact Nat.pow_dvd_pow 2 (bits_mono g (by omega))
      show now + 1 ≤ c
      omega

theorem indexOf_eq (hc : s.timerJiffies = now % 2 ^ g.w) {n : Nat} (hn : n < 4) :
    indexOf g s n = now / 2 ^ g.bits n % 2 ^ g.tvnBits := by
  rw [indexOf, hc, index_mod]
  have := bits_lt g hn
  have := g.wide
  omega

/-- The next vector comes down when the index into this one has wrapped. -/
theorem mod_bits_succ {k : Nat} (h : now % 2 ^ g.bits k = 0) :
    now % 2 ^ g.bits (k + 1) = 0 ↔ now / 2 ^ g.bits k % 2 ^ g.tvnBits = 0 := by
  rw [bits_succ, Nat.pow_add, Nat.mod_mul, h, Nat.zero_add]
  rw [Nat.mul_eq_zero]
  omega

/-- Cascades move timers between the lists of the wheel only. -/
theorem foldl_internalAddTimer_same (l : List T) :
    ∀ s : Wheel T, (l.foldl (internalAddTimer g) s).work = s.work ∧
      (l.foldl (internalAddTimer g) s).timers = s.timers := by
  induction l with
  | nil => intro s; exact ⟨rfl, rfl⟩
  | cons t l ih => intro s; exact ih _

theorem cascade_same (s : Wheel T) (n i : Nat) :
    (cascade g s n i).work = s.work ∧ (cascade g s n i).timers = s.timers :=
  foldl_internalAddTimer_same _ _

theorem cascadeTimers_same (s : Wheel T) :
    (cascadeTimers g s).work = s.work ∧ (cascadeTimers g s).timers = s.timers := by
  unfold cascadeTimers
  split_ifs <;> simp [cascade_same]

theorem WheelOk.weaken {held : List T} (h : WheelOk g lo now due held s) (hlo : ∀ n, n < 4 → lo' n ≤ lo n) :
    WheelOk g lo' now due held s := by
  refine { h with placed := fun slot t ht => ?_ }
  obtain ⟨δ, hδ, hp⟩ := h.placed slot t ht
  refine ⟨δ, hδ, hp.mono ?_⟩
  rintro n i rfl
  exact hlo n hp.1

/-- **The cascades of a tick** bring down every timer that waits for this tick. -/
theorem cascadeTimers_ok (h : WheelOk g (fun _ => now) now due [] s) :
    WheelOk g (fun _ => now + 1) now due [] (cascadeTimers g s) := by
  have h0 : WheelOk g (after now 0) now due [] s := h
  have hc := h.clock
  unfold cascadeTimers
  rw [indexOf_eq hc (by omega), indexOf_eq hc (by omega), indexOf_eq hc (by omega),
    indexOf_eq hc (by omega), hc, mod_tvr, ← bits_zero]
  split
  case isFalse hk => exact after_all h0 hk
  case isTrue hk0 =>
    have h₁ := cascade_ok h0 hk0
    split
    case isFalse hi => exact after_all h₁ (mt (mod_bits_succ hk0).mp hi)
    case isTrue hi0 =>
      have hk1 := (mod_bits_succ hk0).mpr hi0
      have h₂ := cascade_ok h₁ hk1
      split
      case isFalse hi => exact after_all h₂ (mt (mod_bits_succ hk1).mp hi)
      case isTrue hi1 =>
        have hk2 := (mod_bits_succ hk1).mpr hi1
        have h₃ := cascade_ok h₂ hk2
        split
        case isFalse hi => exact after_all h₃ (mt (mod_bits_succ hk2).mp hi)
        case isTrue hi2 =>
          refine (cascade_ok h₃ ((mod_bits_succ hk2).mpr hi2)).weaken fun n hn => ?_
          exact Nat.le_of_eq (if_pos hn).symm

/-- Ticks that are less than a turn of `tv1` apart are on different lists. -/
theorem eq_of_mod_eq {now δ b : Nat} (h₁ : now ≤ δ) (h₂ : δ < now + 2 ^ b)
    (h : δ % 2 ^ b = now % 2 ^ b) : δ = now := by
  obtain ⟨d, rfl⟩ := Nat.exists_eq_add_of_le h₁
  have hd := Nat.sub_mod_eq_zero_of_mod_eq h
  rw [Nat.add_sub_cancel_left, Nat.mod_eq_of_lt (by omega)] at hd
  omega

/-- **The start of a tick**: the timers that are due at `now` are on the `work_list`, all of them and no
    others. -/
theorem startTick_ok (h : WheelOk g (fun _ => now) now due [] s) (hw : onWork s = []) :
    WheelOk g (fun _ => now + 1) (now + 1) due [] (startTick g s) := by
  have hcas := cascadeTimers_ok h
  have hclock : (startTick g s).timerJiffies = (now + 1) % 2 ^ g.w := by
    show ((cascadeTimers g s).timerJiffies + 1) % 2 ^ g.w = _
    rw [hcas.clock, Nat.mod_add_mod]
  have hidx : s.timerJiffies % 2 ^ g.tvrBits = now % 2 ^ g.tvrBits := by rw [h.clock, mod_tvr]
  have hwork : onWork (startTick g s) = (cascadeTimers g s).vec (.tv1 (now % 2 ^ g.tvrBits)) := by
    rw [← hidx]
    rfl
  have hvec : (startTick g s).vec = Bins.take (cascadeTimers g s).vec (.tv1 (now % 2 ^ g.tvrBits)) := by
    rw [← hidx]
    rfl
  have hold : onWork (cascadeTimers g s) = [] := by rw [onWork, (cascadeTimers_same s).1]; exact hw
  refine ⟨hclock, hvec ▸ hcas.bins.take _, fun slot t ht => ?_, ?_, ⟨nodup_nil, nofun⟩, fun t δ hδ => ?_⟩
  · rw [hvec] at ht
    obtain ⟨ht, hne⟩ := Bins.mem_take.mp ht
    obtain ⟨δ, hδ, hp⟩ := hcas.placed slot t ht
    refine ⟨δ, hδ, ?_⟩
    cases slot with
    | tv1 i =>
      obtain ⟨h₁, h₂, h₃⟩ := hp
      have hδn : δ ≠ now := fun e => hne (by rw [← h₃, e])
      exact ⟨by omega, by omega, h₃⟩
    | tvn n i =>
      obtain ⟨hn, he, hlt, c, hc⟩ := hp
      exact ⟨hn, he, by omega, c, hc⟩
  · rw [hwork, hvec]
    refine ⟨hcas.bins.nodup _, fun t ht => ⟨hcas.bins.not_mem_take ht, ?_⟩⟩
    obtain ⟨δ, hδ, h₁, h₂, h₃⟩ := hcas.placed _ t ht
    exact ⟨δ, hδ, by rw [eq_of_mod_eq h₁ h₂ h₃]⟩
  · rw [hwork, hvec]
    rcases hcas.listed t δ hδ with ⟨slot, hm⟩ | hm | hm
    · by_cases hs : slot = .tv1 (now % 2 ^ g.tvrBits)
      · exact .inr (.inl (hs ▸ hm))
      · exact .inl ⟨slot, Bins.mem_take.mpr ⟨hm, hs⟩⟩
    · rw [hold] at hm; nomatch hm
    · nomatch hm

/-! ## Timers come and go -/

section Change

/-- `next_timer` plays no part. -/
theorem WheelOk.setNext {held : List T} (h : WheelOk g lo now due held s) (v : Nat) :
    WheelOk g lo now due held { s with nextTimer := v } :=
  { h with }

theorem forgetNext_ok (h : WheelOk g lo now due [] s) (t : T) : WheelOk g lo now due [] (forgetNext s t) := by
  unfold forgetNext
  split
  · exact h.setNext _
  · exact h

variable [DecidableEq T]

/-- A timer that is taken off its list is armed no longer. -/
theorem detachTimer_ok (h : WheelOk g lo now due [] s) (t : T) (clear : Bool) :
    WheelOk g lo now (update due t none) [] (detachTimer s t clear) := by
  have hfilter : onWork (detachTimer s t clear) = (onWork s).filter (· ≠ t) := by
    cases hw : s.work with
    | none => simp [onWork, detachTimer, hw]
    | some l => simp [onWork, detachTimer, hw]
  have hwork : ∀ x, x ∈ onWork (detachTimer s t clear) ↔ x ∈ onWork s ∧ x ≠ t := by
    intro x
    rw [hfilter, mem_filter, decide_eq_true_eq]
  have hexp : ∀ x, ((detachTimer s t clear).timers x).expires = (s.timers x).expires := by
    intro x
    simp only [detachTimer]
    split
    · by_cases hx : x = t
      · subst hx; simp
      · simp [hx]
    · rfl
  refine ⟨h.clock, h.bins.remove t, fun slot x hx => ?_, ⟨?_, fun x hx => ?_⟩,
    ⟨nodup_nil, nofun⟩, fun x δ hδ => ?_⟩
  · obtain ⟨hx, hne⟩ := Bins.mem_remove.mp hx
    rw [update_of_ne hne, hexp]
    exact h.placed slot x hx
  · rw [hfilter]
    exact h.work.1.filter _
  · obtain ⟨hx, hne⟩ := (hwork x).mp hx
    obtain ⟨h₁, h₂⟩ := h.work.2 x hx
    rw [update_of_ne hne]
    exact ⟨fun slot hm => h₁ slot (Bins.mem_remove.mp hm).1, h₂⟩
  · by_cases hne : x = t
    · rw [hne, update_self] at hδ; nomatch hδ
    · rw [update_of_ne hne] at hδ
      rcases h.listed x δ hδ with ⟨slot, hm⟩ | hm | hm
      · exact .inl ⟨slot, Bins.mem_remove.mpr ⟨hm, hne⟩⟩
      · exact .inr (.inl ((hwork x).mpr ⟨hm, hne⟩))
      · nomatch hm

/-- The fields of a wheel with one more timer. -/
theorem enqueueTimer_eq (s : Wheel T) (t : T) (e : Nat) : enqueueTimer g s t e = { s with
      timers := update s.timers t { s.timers t with expires := e, pending := true }
      nextTimer := if g.timeBefore e s.nextTimer = true ∧ (s.timers t).deferrable = false then e
        else s.nextTimer
      vec := Bins.add s.vec (slotFor g s.timerJiffies e) t } := by
  unfold enqueueTimer internalAddTimer
  simp only [Bool.not_eq_true']
  split_ifs <;> simp

/-- **A timer is put on the wheel**, in time for the tick it is due at. -/
theorem enqueueTimer_ok (h : WheelOk g (fun _ => now) now due [] s) {t : T} (ht : due t = none) {e : Nat}
    (he : e < 2 ^ g.w) :
    WheelOk g (fun _ => now) now (update due t (some (dueTick g now s.timerJiffies e))) []
    (enqueueTimer g s t e) := by
  have hvec : ∀ slot, t ∉ s.vec slot := fun slot hm => by
    obtain ⟨δ, hδ, _⟩ := h.placed slot t hm
    rw [ht] at hδ; nomatch hδ
  have hnw : t ∉ onWork s := fun hm => by
    obtain ⟨_, δ, hδ, _⟩ := h.work.2 t hm
    rw [ht] at hδ; nomatch hδ
  have hslot : PlacedAt g (fun _ => now) now (dueTick g now s.timerJiffies e) e
    (slotFor g s.timerJiffies e) := by
    rw [h.clock, dueTick]
    split
    case isTrue hneg =>
      rw [slotFor_past g hneg]
      exact ⟨Nat.le_refl _, Nat.lt_add_of_pos_right (Nat.two_pow_pos _), rfl⟩
    case isFalse hneg =>
      have hlt : g.sub e (now % 2 ^ g.w) < 2 ^ (g.w - 1) := by simpa [Geometry.negative] using hneg
      have hplace : PlacedAt g (fun _ => now) now (now + g.sub e (now % 2 ^ g.w)) _ _ :=
        placedAt_slotFor g (fun _ => Nat.le_succ _) (Nat.le_add_right ..) (by omega)
      rwa [add_sub_mod g now he] at hplace
  rw [enqueueTimer_eq]
  refine ⟨h.clock, h.bins.add hvec _, fun slot x hx => ?_, ⟨h.work.1, fun x hx => ?_⟩,
    ⟨nodup_nil, nofun⟩, fun x δ hδ => ?_⟩
  · rcases Bins.mem_add.mp hx with hx | ⟨rfl, rfl⟩
    · have hne : x ≠ t := fun e => hvec slot (e ▸ hx)
      simp only [update_of_ne hne]
      exact h.placed slot x hx
    · simp only [update_self]
      exact ⟨_, rfl, hslot⟩
  · have hne : x ≠ t := fun e => hnw (e ▸ hx)
    obtain ⟨h₁, h₂⟩ := h.work.2 x hx
    rw [update_of_ne hne]
    exact ⟨fun slot hm => (Bins.mem_add.mp hm).elim (h₁ slot) fun h => hne h.1, h₂⟩
  · by_cases hne : x = t
    · exact .inl ⟨_, Bins.mem_add.mpr (.inr ⟨hne, rfl⟩)⟩
    · rw [update_of_ne hne] at hδ
      rcases h.listed x δ hδ with ⟨slot, hm⟩ | hm | hm
      · exact .inl ⟨slot, Bins.mem_add.mpr (.inl hm)⟩
      · exact .inr (.inl hm)
      · nomatch hm

end Change

/-! ## Runs -/

/-- What the history records: a timer has been armed for a tick, it has been cancelled, its function has been
    called while a tick was processed. -/
inductive Note (T : Type) where
  | armed (t : T) (due : Nat)
  | cancelled (t : T)
  | called (t : T) (tick : Nat)
  deriving DecidableEq

section Run
variable [DecidableEq T]

/-- The armings that are outstanding after this history (the latest note comes first). -/
def dueOf : List (Note T) → T → Option Nat
  | [] => fun _ => none
  | .armed t δ :: h => update (dueOf h) t (some δ)
  | .cancelled t :: h => update (dueOf h) t none
  | .called t _ :: h => update (dueOf h) t none

/-- A wheel with the ticks it has processed and its history. -/
structure Traced (T : Type) where
  wheel : Wheel T
  now : Nat
  hist : List (Note T)

variable (g)

/-- The steps.  The lock is released around the handlers only; here the rest of the kernel may come in
    between any two of them. -/
inductive Step : Traced T → Traced T → Prop
  | mod (s : Traced T) (t : T) (expires : Nat) (pendingOnly : Bool) (he : expires < 2 ^ g.w) :
      Step s ⟨(modTimer g s.wheel t expires pendingOnly).2, s.now,
        if (s.wheel.timers t).pending || !pendingOnly then
          .armed t (dueTick g s.now s.wheel.timerJiffies expires) :: s.hist
        else s.hist⟩
  | del (s : Traced T) (t : T) :
      Step s ⟨(delTimer s.wheel t).2, s.now,
        if (s.wheel.timers t).pending then .cancelled t :: s.hist else s.hist⟩
  | clock (s : Traced T) : Step s { s with wheel := { s.wheel with
      jiffies := (s.wheel.jiffies + 1) % 2 ^ g.w } }
  | tick (s : Traced T) (hw : onWork s.wheel = [])
      (hj : g.timeAfterEq s.wheel.jiffies s.wheel.timerJiffies = true) :
      Step s ⟨startTick g s.wheel, s.now + 1, s.hist⟩
  | call (s : Traced T) (t : T) (rest : List T) (hw : s.wheel.work = some (t :: rest)) :
      Step s ⟨runFirst s.wheel t, s.now, .called t (s.now - 1) :: s.hist⟩
  | finish (s : Traced T) (hw : onWork s.wheel = [])
      (hj : g.timeAfterEq s.wheel.jiffies s.wheel.timerJiffies = false) :
      Step s { s with wheel := finishRun s.wheel }

/-- A wheel without timers. -/
structure Start (s : Traced T) : Prop where
  clock : s.wheel.timerJiffies = s.now % 2 ^ g.w
  vec : ∀ slot, s.wheel.vec slot = []
  pending : ∀ t, (s.wheel.timers t).pending = false
  work : s.wheel.work = none
  hist : s.hist = []

/-- Every call was made at the tick for which the timer was armed. -/
def CalledOk : List (Note T) → Prop
  | [] => True
  | .armed _ _ :: h => CalledOk h
  | .cancelled _ :: h => CalledOk h
  | .called t τ :: h => dueOf h t = some τ ∧ CalledOk h

/-- What holds in every state of a run. -/
structure RunOk (s : Traced T) : Prop where
  wheel : WheelOk g (fun _ => s.now) s.now (dueOf s.hist) [] s.wheel
  pending : ∀ t, (s.wheel.timers t).pending = (dueOf s.hist t).isSome
  called : CalledOk s.hist

variable {g}

theorem runOk_start {s : Traced T} (h : Start g s) : RunOk g s := by
  have hd : dueOf s.hist = fun _ => none := by rw [h.hist]; rfl
  have hw : onWork s.wheel = [] := by rw [onWork, h.work]; rfl
  refine ⟨⟨h.clock, ⟨fun slot => ?_, fun slot slot' x hx => ?_⟩, fun slot t ht => ?_, ?_,
    ⟨nodup_nil, nofun⟩, fun t δ hδ => ?_⟩, fun t => ?_, ?_⟩
  · rw [h.vec]; exact nodup_nil
  · rw [h.vec] at hx; nomatch hx
  · rw [h.vec] at ht; nomatch ht
  · rw [hw]; exact ⟨nodup_nil, nofun⟩
  · rw [hd] at hδ; nomatch hδ
  · rw [hd, h.pending]; rfl
  · rw [h.hist]; trivial

/-- Who is pending when a timer has been put on the wheel. -/
theorem enqueueTimer_pending (s : Wheel T) (t : T) (e : Nat) (x : T) :
    ((enqueueTimer g s t e).timers x).pending = (decide (x = t) || (s.timers x).pending) := by
  rw [enqueueTimer_eq]
  by_cases hx : x = t
  · subst hx; simp
  · simp [hx]

omit [DecidableEq T] in
theorem forgetNext_timers (s : Wheel T) (t : T) : (forgetNext s t).timers = s.timers ∧
    (forgetNext s t).timerJiffies = s.timerJiffies := by
  unfold forgetNext
  split <;> exact ⟨rfl, rfl⟩

theorem detachTimer_pending (s : Wheel T) (t x : T) :
    ((detachTimer s t true).timers x).pending = (!decide (x = t) && (s.timers x).pending) := by
  simp only [detachTimer, if_true]
  by_cases hx : x = t
  · subst hx; simp
  · simp [hx]

/-- A note about `t` settles what is due for `t`. -/
theorem isSome_update {due : T → Option Nat} {t x : T} {v : Option Nat} :
    (update due t v x).isSome = if x = t then v.isSome else (due x).isSome := by
  by_cases hx : x = t
  · subst hx; simp
  · simp [hx]

theorem runOk_step (s s' : Traced T) (h : RunOk g s) (hs : Step g s s') : RunOk g s' := by
  cases hs with
  | mod t e po he =>
    unfold modTimer
    cases hp : (s.wheel.timers t).pending with
    | true =>
      simp only [Bool.true_or, if_true]
      have hd := forgetNext_ok (detachTimer_ok h.wheel t false) t
      have henq := enqueueTimer_ok hd (update_self ..) he
      rw [update_idem, (forgetNext_timers _ t).2] at henq
      refine ⟨henq, fun x => ?_, h.called⟩
      rw [enqueueTimer_pending, (forgetNext_timers _ t).1, dueOf, isSome_update]
      by_cases hx : x = t
      · simp [hx]
      · simpa [hx, detachTimer] using h.pending x
    | false =>
      cases po with
      | true => exact ⟨h.wheel, h.pending, h.called⟩
      | false =>
        have hnone : dueOf s.hist t = none := by
          have := h.pending t
          rw [hp] at this
          exact Option.not_isSome_iff_eq_none.mp (by rw [← this]; exact Bool.false_ne_true)
        simp only [Bool.not_false, Bool.or_true, if_true, Bool.false_eq_true, if_false]
        refine ⟨enqueueTimer_ok h.wheel hnone he, fun x => ?_, h.called⟩
        rw [enqueueTimer_pending, dueOf, isSome_update]
        by_cases hx : x = t
        · simp [hx]
        · simpa [hx] using h.pending x
  | del t =>
    unfold delTimer
    cases hp : (s.wheel.timers t).pending with
    | false => exact h
    | true =>
      simp only [if_true]
      refine ⟨forgetNext_ok (detachTimer_ok h.wheel t true) t, fun x => ?_, h.called⟩
      rw [(forgetNext_timers _ t).1, detachTimer_pending, dueOf, isSome_update]
      by_cases hx : x = t
      · simp [hx]
      · simpa [hx] using h.pending x
  | clock =>
    exact ⟨{ h.wheel with }, h.pending, h.called⟩
  | tick hw hj =>
    refine ⟨startTick_ok h.wheel hw, fun x => ?_, h.called⟩
    show ((cascadeTimers g s.wheel).timers x).pending = _
    rw [(cascadeTimers_same s.wheel).2]
    exact h.pending x
  | call t rest hw =>
    have ht : t ∈ onWork s.wheel := by rw [onWork, hw]; exact mem_cons_self ..
    obtain ⟨_, δ, hδ, hnow⟩ := h.wheel.work.2 t ht
    refine ⟨{ detachTimer_ok h.wheel t true with }, fun x => ?_, ?_, h.called⟩
    · show ((detachTimer s.wheel t true).timers x).pending = _
      rw [detachTimer_pending, dueOf, isSome_update]
      by_cases hx : x = t
      · simp [hx]
      · simpa [hx] using h.pending x
    · rw [hδ, ← hnow, Nat.add_sub_cancel]
  | finish hw hj =>
    obtain ⟨h₁, h₂, h₃, h₄, h₅, h₆⟩ := h.wheel
    rw [hw] at h₄
    refine ⟨⟨h₁, h₂, h₃, h₄, ⟨nodup_nil, nofun⟩, fun t δ hδ => ?_⟩, h.pending, h.called⟩
    have := h₆ t δ hδ
    rwa [hw] at this

/-- The history of a call. -/
theorem CalledOk.at {t : T} {τ : Nat} {post : List (Note T)} : ∀ {pre hist : List (Note T)},
    CalledOk hist → hist = pre ++ .called t τ :: post → dueOf post t = some τ := by
  intro pre
  induction pre with
  | nil => rintro hist h rfl; exact h.1
  | cons n pre ih =>
    rintro hist h rfl
    cases n with
    | armed t' δ => exact ih (show CalledOk (pre ++ _) from h) rfl
    | cancelled t' => exact ih (show CalledOk (pre ++ _) from h) rfl
    | called t' τ' => exact ih h.2 rfl

/-! ## The wheel keeps its promise -/

/-- On exactly one list, once: a list of the wheel, or the `work_list` of a running `__run_timers`. -/
def OnOneList (s : Wheel T) (t : T) : Prop :=
  (∃ slot, (s.vec slot).count t = 1 ∧ (∀ slot', t ∈ s.vec slot' → slot' = slot) ∧ t ∉ onWork s) ∨
    ((∀ slot, t ∉ s.vec slot) ∧ (onWork s).count t = 1 ∧ s.work ≠ none)

theorem RunOk.not_overdue {s : Traced T} (h : RunOk g s) {t : T} {δ : Nat} (hδ : dueOf s.hist t = some δ) :
    s.now ≤ δ ∨ δ + 1 = s.now ∧ t ∈ onWork s.wheel := by
  rcases h.wheel.listed t δ hδ with ⟨slot, hm⟩ | hm | hm
  · obtain ⟨δ', hδ', hp⟩ := h.wheel.placed slot t hm
    obtain rfl : δ = δ' := Option.some.inj (hδ.symm.trans hδ')
    refine .inl ?_
    cases slot with
    | tv1 i => exact hp.1
    | tvn n i =>
      obtain ⟨_, _, _, c, hc, hcδ, _⟩ := hp
      exact Nat.le_trans hc hcδ
  · obtain ⟨_, δ', hδ', hnow⟩ := h.wheel.work.2 t hm
    obtain rfl : δ = δ' := Option.some.inj (hδ.symm.trans hδ')
    exact .inr ⟨hnow, hm⟩
  · nomatch hm

theorem RunOk.onOneList {s : Traced T} (h : RunOk g s) {t : T}
    (ht : (s.wheel.timers t).pending = true) : OnOneList s.wheel t := by
  rw [h.pending, Option.isSome_iff_exists] at ht
  obtain ⟨δ, hδ⟩ := ht
  rcases h.wheel.listed t δ hδ with ⟨slot, hm⟩ | hm | hm
  · refine .inl ⟨slot, count_eq_one_of_mem (h.wheel.bins.nodup slot) hm, fun slot' hm' => ?_,
      fun hw => (h.wheel.work.2 t hw).1 slot hm⟩
    exact h.wheel.bins.unique slot' slot t hm' hm
  · refine .inr ⟨(h.wheel.work.2 t hm).1, count_eq_one_of_mem h.wheel.work.1 hm, fun hn => ?_⟩
    rw [onWork, hn] at hm
    nomatch hm
  · nomatch hm

/-- **Every timer fires exactly on its tick.**  In every run: a call is made while the tick is processed for
    which the timer's outstanding arming was due, and settles that arming; an arming that is outstanding
    is due at a tick that is not yet processed, or at the one that is being processed, with the timer on
    the `work_list`; the pending timers are those with an outstanding arming, each on exactly one list.
    An arming is due at the tick with the number `expires`, or, if that is in the past of the wheel, at
    the tick that is processed next. -/
theorem timers_on_their_tick {s : Traced T} (hs : Run.Reachable (Start g) (Step g) s) :
    s.wheel.timerJiffies = s.now % 2 ^ g.w ∧
    (∀ pre t τ post, s.hist = pre ++ .called t τ :: post → dueOf post t = some τ) ∧
    (∀ t δ, dueOf s.hist t = some δ → s.now ≤ δ ∨ δ + 1 = s.now ∧ t ∈ onWork s.wheel) ∧
    (∀ t, (s.wheel.timers t).pending = (dueOf s.hist t).isSome) ∧
    (∀ t, (s.wheel.timers t).pending = true → OnOneList s.wheel t) ∧
    ∀ expires, expires < 2 ^ g.w → (g.timeAfterEq expires s.wheel.timerJiffies = true →
        s.now ≤ dueTick g s.now s.wheel.timerJiffies expires ∧
          dueTick g s.now s.wheel.timerJiffies expires % 2 ^ g.w = expires) ∧
      (g.timeBefore expires s.wheel.timerJiffies = true →
        dueTick g s.now s.wheel.timerJiffies expires = s.now) := by
  have h : RunOk g s := Run.invariant_of_step (fun s => runOk_start) runOk_step hs
  have hclock := h.wheel.clock
  refine ⟨hclock, fun pre t τ post e => h.called.at e, fun t δ hδ => h.not_overdue hδ, h.pending,
    fun t ht => h.onOneList ht, fun e he => ⟨fun hafter => ?_, fun hbefore => if_pos hbefore⟩⟩
  rw [dueTick, if_neg (by simpa [Geometry.timeAfterEq] using hafter), hclock]
  exact ⟨Nat.le_add_right .., add_sub_mod g s.now he⟩

/-- A 32-bit machine with `CONFIG_BASE_SMALL`. -/
def smallGeometry : Geometry := ⟨32, 6, 4, by decide, by decide, by decide⟩

/-- A wheel at tick 63.  Of two timers one is called at tick 64; the other one, for tick 127, is moved
    down there. -/
theorem timers_on_their_tick_sample : ∃ s : Traced Bool,
    s.hist = [.called true 64, .armed false 127, .armed true 64] ∧
      Run.Reachable (Start smallGeometry) (Step smallGeometry) s ∧
      ∀ pre t τ post, s.hist = pre ++ .called t τ :: post → dueOf post t = some τ := by
  let w0 : Wheel Bool := ⟨63, 63, none, fun _ => [], fun _ => ⟨0, false, false⟩, 64, none⟩
  have h0 : Start smallGeometry (⟨w0, 63, []⟩ : Traced Bool) := ⟨rfl, fun _ => rfl, fun _ => rfl, rfl, rfl⟩
  have hr : Run.Reachable (Start smallGeometry) (Step smallGeometry) ⟨w0, 63, []⟩ := ⟨_, h0, .refl⟩
  have h1 := hr.tail (Step.mod _ true 64 false (by decide))
  have h2 := h1.tail (Step.mod _ false 127 false (by decide))
  have h3 := h2.tail (Step.tick _ (by decide) (by decide))
  have h4 := h3.tail (Step.tick _ (by decide) (by decide))
  have h5 := h4.tail (Step.call _ true [] (by decide))
  exact ⟨_, by decide, h5, (timers_on_their_tick h5).2.1⟩

end Run
end LinuxKernel.Timer
