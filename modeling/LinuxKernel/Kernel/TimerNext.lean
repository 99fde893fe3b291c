/-
  The next timer interrupt of an idle CPU (`kernel/timer.c`).

  1. **Program** — `nextTimerInterrupt` looks for the first list of `tv1` with a timer that is not
     deferrable, and then at the lists of the higher vectors that are cascaded next.
     `getNextTimerInterrupt` calls it only if the cached `next_timer` is not after `timer_jiffies`.

  2. **Positions** (`pos`) — words are compared by the sign of their difference.  Seen from
     `timer_jiffies` this is the order of the positions, as long as these are NEAR: less than a quarter
     of the circle away.

  3. **Order of the lists** (`Located`) — vector `n` is searched from the first list that is cascaded not
     before now, the list of the ticks from `boundary n` on.  The `k`-th list holds ticks of the `k`-th
     block of `2 ^ bits n` ticks, so a timer in a list that is found holds against all lists that follow.

  4. **Search** (`nextTimerInterrupt_le`) — one invariant (`Ahead`) for the way through the vectors: what
     has been found is not later than any timer of the vectors passed, and falls before the end of the first
     block of the next vector.
-/
import LinuxKernel.Kernel.TimerRun

namespace LinuxKernel.Timer

open List
variable {T : Type}

/-! ## `__next_timer_interrupt` -/

def NEXT_TIMER_MAX_DELTA : Nat := 2 ^ 30 - 1

/-- The search of `tv1`: the first list, from `slot` on to `index`, with a timer that is not deferrable. -/
def scanTv1 (g : Geometry) (s : Wheel T) (index : Nat) : Nat → Nat → Option (Nat × T)
  | 0, _ => none
  | turns + 1, slot =>
    match (s.vec (.tv1 slot)).find? fun nte => !(s.timers nte).deferrable with
    | some nte => some (slot, nte)
    | none =>
      let slot := (slot + 1) % 2 ^ g.tvrBits
      if slot = index then none else scanTv1 g s index turns slot

/-- `found` and `expires` after the timers of a list. -/
def lookAt (g : Geometry) (s : Wheel T) : List T → Bool × Nat → Bool × Nat
  | [], r => r
  | nte :: rest, r =>
    if (s.timers nte).deferrable then lookAt g s rest r
    else lookAt g s rest (true,
      if g.timeBefore (s.timers nte).expires r.2 then (s.timers nte).expires else r.2)

/-- How the search of a vector ends. -/
inductive Scan where
  | returns (expires : Nat)
  | goesOn (r : Bool × Nat)

/-- The search of `tv2`, …, `tv5`, from `slot` on to `index`. -/
def scanVec (g : Geometry) (s : Wheel T) (n index : Nat) : Nat → Nat → Bool × Nat → Scan
  | 0, _, r => .goesOn r
  | turns + 1, slot, r =>
    let r := lookAt g s (s.vec (.tvn n slot)) r
    if r.1 then
      -- look at the cascade buckets?
      if index = 0 ∨ slot < index then .goesOn r else .returns r.2
    else
      let slot := (slot + 1) % 2 ^ g.tvnBits
      if slot = index then .goesOn r else scanVec g s n index turns slot r

/-- The next cascade event: `timer_jiffies` is rounded up and shifted. -/
def nextCascade (g : Geometry) (bits timerJiffies : Nat) : Nat :=
  let index := timerJiffies % 2 ^ bits
  (if index = 0 then timerJiffies else (timerJiffies + (2 ^ bits - index)) % 2 ^ g.w) / 2 ^ bits

/-- The loop over the vectors from `n` on, of which `left` are left. -/
def searchVecs (g : Geometry) (s : Wheel T) : Nat → Nat → Nat → Bool × Nat → Nat
  | 0, _, _, r => r.2
  | left + 1, n, timerJiffies, r =>
    let index := timerJiffies % 2 ^ g.tvnBits
    match scanVec g s n index (2 ^ g.tvnBits) index r with
    | .returns expires => expires
    | .goesOn r => searchVecs g s left (n + 1) (nextCascade g g.tvnBits timerJiffies) r

/-- `__next_timer_interrupt`. -/
def nextTimerInterrupt (g : Geometry) (s : Wheel T) : Nat :=
  let index := s.timerJiffies % 2 ^ g.tvrBits
  let cascade := searchVecs g s 4 0 (nextCascade g g.tvrBits s.timerJiffies)
  match scanTv1 g s index (2 ^ g.tvrBits) index with
  | some (slot, nte) =>
    if index = 0 ∨ slot < index then cascade (true, (s.timers nte).expires) else (s.timers nte).expires
  | none => cascade (false, (s.timerJiffies + NEXT_TIMER_MAX_DELTA) % 2 ^ g.w)

/-- What `hrtimer_get_next_event` says: nothing, an event that is due, or one in so many jiffies. -/
inductive HrEvent where
  | never
  | due
  | within (delta : Nat)

def cmpNextHrtimerEvent (g : Geometry) (now expires : Nat) : HrEvent → Nat
  | .never => expires
  | .due => (now + 1) % 2 ^ g.w
  | .within delta =>
    let delta := if delta > NEXT_TIMER_MAX_DELTA then NEXT_TIMER_MAX_DELTA else delta
    let now := (now + if delta < 1 then 1 else delta) % 2 ^ g.w
    if g.timeBefore now expires then now else expires

/-- `next_timer`, recomputed if it is not after `timer_jiffies`. -/
def refreshNext (g : Geometry) (s : Wheel T) : Wheel T :=
  if g.timeAfterEq s.timerJiffies s.nextTimer then { s with nextTimer := nextTimerInterrupt g s } else s

def getNextTimerInterrupt (g : Geometry) (s : Wheel T) (offline : Bool) (now : Nat) (hr : HrEvent) :
    Nat × Wheel T :=
  if offline then ((now + NEXT_TIMER_MAX_DELTA) % 2 ^ g.w, s)
  else
    let s := refreshNext g s
    (if g.timeAfterEq now s.nextTimer then now else cmpNextHrtimerEvent g now s.nextTimer hr, s)

/-! ## Positions -/

variable (g : Geometry)

/-- How far a word is ahead of another one, or behind it. -/
def pos (base x : Nat) : Int := ((x : Int) - base).bmod (2 ^ g.w)

/-- Less than a quarter of the circle away. -/
def Near (base x : Nat) : Prop := (pos g base x).natAbs < 2 ^ (g.w - 2)

instance (base x : Nat) : Decidable (Near g base x) := Nat.decLt ..

variable {g}

theorem pow_quarter : 2 ^ g.w = 4 * 2 ^ (g.w - 2) ∧ 2 ^ (g.w - 1) = 2 * 2 ^ (g.w - 2) := by
  obtain ⟨k, hk⟩ := Nat.exists_eq_add_of_le g.wide
  rw [hk, show 32 + k = 30 + k + 2 by omega, show 30 + k + 2 - 1 = 30 + k + 1 by omega, Nat.add_sub_cancel,
    Nat.pow_add 2 _ 2, Nat.pow_add 2 _ 1]
  omega

/-- A number of less than half of the circle is its own position. -/
theorem bmod_eq {p : Int} (h : p.natAbs < 2 ^ (g.w - 1)) : p.bmod (2 ^ g.w) = p := by
  obtain ⟨h4, h2⟩ := @pow_quarter g
  exact Int.bmod_eq_of_le_mul_two (by omega) (by omega)

variable {base x y : Nat}

/-- The sign of the difference. -/
theorem timeBefore_iff_pos (hy : y < 2 ^ g.w) : g.timeBefore x y = true ↔ pos g y x < 0 := by
  obtain ⟨h4, h2⟩ := @pow_quarter g
  have hsub : ((g.sub x y : Nat) : Int) = ((x : Int) - y) % (2 ^ g.w : Nat) := by
    rw [Geometry.sub, Int.natCast_mod, Int.natCast_add, Int.natCast_sub hy.le,
      show (x : Int) + ((2 ^ g.w : Nat) - y) = x - y + (2 ^ g.w : Nat) by omega, Int.add_emod_right]
  rw [pos, Int.bmod_def, ← hsub, Geometry.timeBefore, Geometry.negative, decide_eq_true_eq]
  split <;> omega

/-- **Words that are near are compared by their positions.** -/
theorem timeBefore_iff (hy : y < 2 ^ g.w) (h : (pos g base x - pos g base y).natAbs < 2 ^ (g.w - 1)) :
    g.timeBefore x y = true ↔ pos g base x < pos g base y := by
  have hpos : pos g y x = pos g base x - pos g base y := by
    rw [← bmod_eq h, pos, pos, pos, Int.bmod_sub_bmod, Int.sub_bmod_bmod]
    congr 1
    omega
  rw [timeBefore_iff_pos hy, hpos]
  omega

theorem Near.timeBefore_iff (hy : y < 2 ^ g.w) (nx : Near g base x) (ny : Near g base y) :
    g.timeBefore x y = true ↔ pos g base x < pos g base y := by
  refine Timer.timeBefore_iff hy ?_
  have := (@pow_quarter g).2
  unfold Near at nx ny
  omega

/-- The position of a later word. -/
theorem pos_add {d : Nat} (h : (pos g base x + d).natAbs < 2 ^ (g.w - 1)) :
    pos g base ((x + d) % 2 ^ g.w) = pos g base x + d := by
  rw [← bmod_eq h, pos, pos, Int.bmod_add_bmod, Int.natCast_mod, Int.sub_eq_add_neg, Int.emod_add_bmod]
  congr 1
  omega

@[simp] theorem pos_self : pos g x x = 0 := by rw [pos, Int.sub_self, Int.zero_bmod]

theorem near_self : Near g x x := by
  rw [Near, pos_self]
  exact Nat.two_pow_pos _

/-- A tick brings every word closer, or leaves it further behind. -/
theorem pos_tick {now : Nat} (hn : Near g (now % 2 ^ g.w) x) :
    pos g ((now + 1) % 2 ^ g.w) x = pos g (now % 2 ^ g.w) x - 1 := by
  have hrange : (pos g (now % 2 ^ g.w) x - 1).natAbs < 2 ^ (g.w - 1) := by
    have := (@pow_quarter g).2
    unfold Near at hn
    omega
  rw [← bmod_eq hrange, pos, pos, Int.natCast_mod, Int.natCast_mod, Int.sub_emod_bmod, Int.sub_emod_bmod,
    Int.bmod_sub_bmod]
  congr 1
  omega

/-! ## The order of the lists -/

/-- The first block of `2 ^ bits n` ticks that starts now or later. -/
def boundary (g : Geometry) (now n : Nat) : Nat := now ⌈/⌉ 2 ^ g.bits n

variable {now n m : Nat}

theorem boundary_le_iff {q : Nat} : boundary g now n ≤ q ↔ now ≤ q * 2 ^ g.bits n := by
  rw [boundary, ceilDiv_le_iff_le_mul (Nat.two_pow_pos _), Nat.mul_comm]

theorem le_boundary_mul : now ≤ boundary g now n * 2 ^ g.bits n := boundary_le_iff.mp le_rfl

theorem boundary_mul_mono (h : n ≤ m) :
    boundary g now n * 2 ^ g.bits n ≤ boundary g now m * 2 ^ g.bits m := by
  have hpow : 2 ^ g.bits m = 2 ^ (g.bits m - g.bits n) * 2 ^ g.bits n := by
    rw [← Nat.pow_add, Nat.sub_add_cancel (bits_mono g h)]
  rw [hpow, ← Nat.mul_assoc]
  refine Nat.mul_le_mul_right _ (boundary_le_iff.mpr ?_)
  rw [Nat.mul_assoc, ← hpow]
  exact le_boundary_mul

theorem boundary_succ : boundary g now (n + 1) = boundary g now n ⌈/⌉ 2 ^ g.tvnBits := by
  refine eq_of_forall_ge_iff fun q => ?_
  rw [boundary_le_iff, ceilDiv_le_iff_le_mul (Nat.two_pow_pos _), boundary_le_iff, bits_succ, Nat.pow_add,
    Nat.mul_comm (2 ^ g.tvnBits) q, Nat.mul_assoc, Nat.mul_comm (2 ^ g.tvnBits)]

theorem boundary_le_succ : boundary g now n ≤ boundary g now (n + 1) * 2 ^ g.tvnBits := by
  rw [boundary_le_iff, Nat.mul_assoc, ← Nat.pow_add, Nat.add_comm g.tvnBits, ← bits_succ]
  exact le_boundary_mul

/-- The blocks of the next vector start behind those that are reached without wrapping. -/
theorem lt_boundary_succ {k : Nat} (h : boundary g now n % 2 ^ g.tvnBits ≠ 0)
    (hk : boundary g now n % 2 ^ g.tvnBits + k < 2 ^ g.tvnBits) :
    boundary g now n + k + 1 ≤ boundary g now (n + 1) * 2 ^ g.tvnBits := by
  have hle := @boundary_le_succ g now n
  have hdiv := Nat.div_add_mod (boundary g now n) (2 ^ g.tvnBits)
  generalize boundary g now n = q at *
  have hlt : q / 2 ^ g.tvnBits < boundary g now (n + 1) := by
    by_contra hge
    have := Nat.mul_le_mul_right (2 ^ g.tvnBits) (not_lt.mp hge)
    rw [Nat.mul_comm (q / _)] at this
    omega
  have := Nat.mul_le_mul_right (2 ^ g.tvnBits) hlt
  rw [Nat.succ_mul, Nat.mul_comm (q / _)] at this
  omega

/-- Rounding up a word that agrees with `b` in its lower bits. -/
theorem nextCascade_modEq {bits a b r : Nat} (hr : 2 ^ bits * r ∣ 2 ^ g.w) (h : a ≡ b [MOD 2 ^ bits * r]) :
    nextCascade g bits a ≡ b ⌈/⌉ 2 ^ bits [MOD r] := by
  have hp : 0 < 2 ^ bits := Nat.two_pow_pos _
  have hidx : a % 2 ^ bits = b % 2 ^ bits := h.of_mul_right r
  have hb := Nat.div_add_mod b (2 ^ bits)
  refine Nat.ModEq.mul_left_cancel' hp.ne' ?_
  unfold nextCascade
  rw [Nat.ceilDiv_eq_add_pred_div]
  simp only
  split
  next h0 =>
    rw [Nat.mul_div_cancel' (Nat.dvd_of_mod_eq_zero h0)]
    have hq : (b + 2 ^ bits - 1) / 2 ^ bits = b / 2 ^ bits :=
      Nat.div_eq_of_lt_le (by rw [Nat.mul_comm]; omega) (by rw [Nat.succ_mul, Nat.mul_comm]; omega)
    rw [hq, Nat.mul_div_cancel' (Nat.dvd_of_mod_eq_zero (hidx ▸ h0))]
    exact h
  next h0 =>
    have hround : ∀ c, c % 2 ^ bits = b % 2 ^ bits → 2 ^ bits ∣ c + (2 ^ bits - a % 2 ^ bits) := by
      intro c hc
      have := Nat.div_add_mod c (2 ^ bits)
      exact ⟨c / 2 ^ bits + 1, by rw [Nat.mul_succ]; omega⟩
    have hq : (b + 2 ^ bits - 1) / 2 ^ bits = (b + (2 ^ bits - a % 2 ^ bits)) / 2 ^ bits := by
      have hd := hround b rfl
      obtain ⟨c, hc⟩ := hd
      rw [hc, Nat.mul_div_cancel_left c hp]
      exact Nat.div_eq_of_lt_le (by rw [Nat.mul_comm]; omega) (by rw [Nat.succ_mul, Nat.mul_comm]; omega)
    rw [hq, Nat.mul_div_cancel' (hround b rfl), Nat.mul_div_cancel']
    · exact ((Nat.mod_modEq _ _).of_dvd hr).trans (h.add_right _)
    · exact (Nat.dvd_mod_iff (Nat.dvd_trans (Nat.dvd_mul_right _ _) hr)).mpr (hround a hidx)

/-- Where the timers are on the lists, seen from tick `now`.  A timer on `tv1` may be overdue. -/
structure Located (g : Geometry) (now : Nat) (s : Wheel T) : Prop where
  clock : s.timerJiffies = now % 2 ^ g.w
  near : ∀ slot t, t ∈ s.vec slot → (s.timers t).expires < 2 ^ g.w ∧
    Near g s.timerJiffies (s.timers t).expires
  tv1 : ∀ i t, t ∈ s.vec (.tv1 i) → ∃ k, k < 2 ^ g.tvrBits ∧ i = (now + k) % 2 ^ g.tvrBits ∧
    pos g s.timerJiffies (s.timers t).expires ≤ k ∧
    (0 ≤ pos g s.timerJiffies (s.timers t).expires → pos g s.timerJiffies (s.timers t).expires = k)
  tvn : ∀ n i t, t ∈ s.vec (.tvn n i) → n < 4 ∧ ∃ k δ : Nat, k < 2 ^ g.tvnBits ∧
    i = (boundary g now n + k) % 2 ^ g.tvnBits ∧ pos g s.timerJiffies (s.timers t).expires = (δ : Int) - now ∧
    (boundary g now n + k) * 2 ^ g.bits n ≤ δ ∧ δ < (boundary g now n + k + 1) * 2 ^ g.bits n

/-! ## The search -/

/-- `tv1` is searched first, then the other vectors in turn. -/
def Slot.level : Slot → Nat
  | .tv1 _ => 0
  | .tvn n _ => n + 1

/-- A list in which the search finds nothing. -/
abbrev Skipped (s : Wheel T) (slot : Slot) : Prop := ∀ t ∈ s.vec slot, (s.timers t).deferrable = true

/-- `x` is not later than any timer of the first `level` vectors, deferrable and overdue ones aside. -/
def NotAfter (g : Geometry) (s : Wheel T) (level x : Nat) : Prop :=
  ∀ slot t, t ∈ s.vec slot → slot.level < level → (s.timers t).deferrable = false →
    0 ≤ pos g s.timerJiffies (s.timers t).expires →
    pos g s.timerJiffies x ≤ pos g s.timerJiffies (s.timers t).expires

/-- **The invariant of the search** when the vectors before `n` are passed: nothing has been found, and
    nothing is there, or what has been found is not later than any timer of these vectors, and before
    tick `H`. -/
structure Ahead (g : Geometry) (now : Nat) (s : Wheel T) (n H : Nat) (r : Bool × Nat) : Prop where
  word : r.2 < 2 ^ g.w
  near : Near g s.timerJiffies r.2
  nothing : r.1 = false → ∀ slot t, t ∈ s.vec slot → slot.level ≤ n → (s.timers t).deferrable = true
  found : r.1 = true → NotAfter g s (n + 1) r.2 ∧ pos g s.timerJiffies r.2 + now < H

variable {s : Wheel T} {r : Bool × Nat}

/-- The timers of a list: the earliest of them and of what was found before. -/
theorem lookAt_spec (l : List T) : ∀ (r : Bool × Nat),
    (∀ t ∈ l, (s.timers t).expires < 2 ^ g.w ∧ Near g s.timerJiffies (s.timers t).expires) →
    r.2 < 2 ^ g.w → Near g s.timerJiffies r.2 →
    (lookAt g s l r).2 < 2 ^ g.w ∧ Near g s.timerJiffies (lookAt g s l r).2 ∧
      pos g s.timerJiffies (lookAt g s l r).2 ≤ pos g s.timerJiffies r.2 ∧
      (∀ t ∈ l, (s.timers t).deferrable = false → (lookAt g s l r).1 = true ∧
        pos g s.timerJiffies (lookAt g s l r).2 ≤ pos g s.timerJiffies (s.timers t).expires) ∧
      ((lookAt g s l r).1 = true → r.1 = true ∨ ∃ t ∈ l, (s.timers t).deferrable = false) ∧
      (r.1 = true → (lookAt g s l r).1 = true) := by
  induction l with
  | nil => intro r _ hw hn; exact ⟨hw, hn, le_rfl, forall_mem_nil _, .inl, id⟩
  | cons nte rest ih =>
    intro r hl hw hn
    obtain ⟨hte, hrest⟩ := forall_mem_cons.mp hl
    rw [lookAt]
    cases hd : (s.timers nte).deferrable with
    | true =>
      obtain ⟨h1, h2, h3, h4, h5, h6⟩ := ih r hrest hw hn
      refine ⟨h1, h2, h3, forall_mem_cons.mpr ⟨fun h => ?_, h4⟩, fun h => ?_, h6⟩
      · rw [hd] at h
        cases h
      · exact (h5 h).imp_right fun ⟨t, ht, h⟩ => ⟨t, mem_cons_of_mem _ ht, h⟩
    | false =>
      have hcmp := hte.2.timeBefore_iff hw hn
      -- the earlier one of the two
      obtain ⟨m, hm, hmw, hmn, hm1, hm2⟩ : ∃ m, (if g.timeBefore (s.timers nte).expires r.2 = true then
          (s.timers nte).expires else r.2) = m ∧ m < 2 ^ g.w ∧ Near g s.timerJiffies m ∧
          pos g s.timerJiffies m ≤ pos g s.timerJiffies (s.timers nte).expires ∧
          pos g s.timerJiffies m ≤ pos g s.timerJiffies r.2 := by
        split
        next h => exact ⟨_, rfl, hte.1, hte.2, le_rfl, Int.le_of_lt (hcmp.mp h)⟩
        next h => exact ⟨_, rfl, hw, hn, Int.not_lt.mp (mt hcmp.mpr h), le_rfl⟩
      rw [hm]
      obtain ⟨h1, h2, h3, h4, h5, h6⟩ := ih (true, m) hrest hmw hmn
      refine ⟨h1, h2, Int.le_trans h3 hm2, forall_mem_cons.mpr ⟨fun _ => ?_, h4⟩, fun _ => ?_,
        fun _ => h6 rfl⟩
      · exact ⟨h6 rfl, Int.le_trans h3 hm1⟩
      · exact .inr ⟨nte, mem_cons_self, hd⟩

/-- Going round a vector of `2 ^ b` lists from `i` on. -/
theorem slot_succ {i k b : Nat} : ((i + k) % 2 ^ b + 1) % 2 ^ b = (i + (k + 1)) % 2 ^ b := by
  rw [Nat.mod_add_mod, Nat.add_assoc]

theorem slot_eq_iff {i k k' b : Nat} (hk : k < 2 ^ b) (hk' : k' < 2 ^ b) :
    (i + k) % 2 ^ b = (i + k') % 2 ^ b ↔ k = k' := by
  constructor
  · intro h
    have := Nat.ModEq.add_left_cancel' i h
    rwa [Nat.ModEq, Nat.mod_eq_of_lt hk, Nat.mod_eq_of_lt hk'] at this
  · rintro rfl
    rfl

/-- The start is reached again after a whole turn. -/
theorem slot_succ_eq_iff {i k b : Nat} (hk : k < 2 ^ b) :
    (i + (k + 1)) % 2 ^ b = i % 2 ^ b ↔ k + 1 = 2 ^ b := by
  constructor
  · intro h
    by_contra hne
    have := (@slot_eq_iff i (k + 1) 0 b (by omega) (by omega)).mp h
    omega
  · intro h
    rw [h, Nat.add_mod_right]

/-- Slots behind the start of the vector are those that are reached by wrapping. -/
theorem slot_lt_iff {i k b : Nat} (hk : k < 2 ^ b) : (i + k) % 2 ^ b < i % 2 ^ b ↔ 2 ^ b ≤ i % 2 ^ b + k := by
  rw [← Nat.mod_add_mod]
  by_cases h : i % 2 ^ b + k < 2 ^ b
  · rw [Nat.mod_eq_of_lt h]
    omega
  · rw [Nat.mod_eq_sub_mod (by omega), Nat.mod_eq_of_lt (by omega)]
    omega

/-- What is true when the search of vector `n` ends. -/
def ScanOk (g : Geometry) (now : Nat) (s : Wheel T) (n : Nat) : Scan → Prop
  | .returns x => x < 2 ^ g.w ∧ Near g s.timerJiffies x ∧ NotAfter g s 5 x
  | .goesOn r => Ahead g now s (n + 1) ((boundary g now (n + 1) + 1) * 2 ^ g.bits (n + 1)) r

/-- A timer of a vector behind `n` is due in a block of the next vector. -/
theorem Located.behind (h : Located g now s) {i : Nat} {t : T} (ht : t ∈ s.vec (.tvn m i)) (hm : n < m) :
    (boundary g now (n + 1) * 2 ^ g.bits (n + 1) : Nat) ≤ pos g s.timerJiffies
    (s.timers t).expires + now := by
  obtain ⟨_, k, δ, _, _, hpos, hle, _⟩ := h.tvn m i t ht
  have hmono := @boundary_mul_mono g now (n + 1) m hm
  rw [Nat.add_mul] at hle
  omega

/-- **The list of block `k`**, when the lists before it are empty: what is found now holds against all
    timers of this vector. -/
theorem Located.look (h : Located g now s) {k : Nat} (hk : k < 2 ^ g.tvnBits)
    (hr : Ahead g now s n ((boundary g now n + k + 1) * 2 ^ g.bits n) r)
    (hempty : ∀ j < k, Skipped s (.tvn n ((boundary g now n + j) % 2 ^ g.tvnBits))) :
    let out := lookAt g s (s.vec (.tvn n ((boundary g now n + k) % 2 ^ g.tvnBits))) r
    out.1 = true → Ahead g now s (n + 1) ((boundary g now n + k + 1) * 2 ^ g.bits n)
        out := by
  dsimp only
  obtain ⟨h1, h2, h3, h4, h5, h6⟩ := lookAt_spec (s.vec (.tvn n ((boundary g now n + k) % 2 ^ g.tvnBits))) r
    (fun t ht => h.near _ t ht) hr.word hr.near
  generalize lookAt g s _ r = r' at *
  intro hfound
  have hlt : pos g s.timerJiffies r'.2 + now < ((boundary g now n + k + 1) * 2 ^ g.bits n : Nat) := by
    rcases h5 hfound with hold | ⟨t, ht, hd⟩
    · have := (hr.found hold).2
      omega
    · obtain ⟨_, k', δ, hk', hslot, hpos, _, hδ⟩ := h.tvn _ _ t ht
      obtain rfl := (slot_eq_iff hk hk').mp hslot
      have := (h4 t ht hd).2
      omega
  refine ⟨h1, h2, fun hno => absurd hfound (by simp [hno]),
    fun _ => ⟨fun slot t ht hlevel hd hover => ?_, hlt⟩⟩
  by_cases hlow : slot.level ≤ n
  · -- a vector that has been passed
    cases hold : r.1 with
    | true => exact Int.le_trans h3 ((hr.found hold).1 slot t ht (by omega) hd hover)
    | false => exact absurd (hr.nothing hold slot t ht hlow) (by simp [hd])
  · cases slot with
    | tv1 i => exact absurd (Nat.zero_le n) hlow
    | tvn n' i =>
      obtain rfl : n' = n := by simp only [Slot.level] at hlevel hlow; omega
      obtain ⟨_, k', δ, hk', rfl, hpos, hle, _⟩ := h.tvn _ _ t ht
      rcases Nat.lt_trichotomy k' k with hlt' | rfl | hgt
      · exact absurd (hempty k' hlt' t ht) (by simp [hd])
      · exact (h4 t ht hd).2
      · have := Nat.mul_le_mul_right (2 ^ g.bits n')
          (show boundary g now n' + k + 1 ≤ boundary g now n' + k' by omega)
        omega

theorem scanVec_spec (h : Located g now s) (hn : n < 4) : ∀ (turns k : Nat) (r : Bool × Nat),
    k + turns = 2 ^ g.tvnBits → k < 2 ^ g.tvnBits →
    Ahead g now s n ((boundary g now n + k + 1) * 2 ^ g.bits n) r →
    (∀ j < k, Skipped s (.tvn n ((boundary g now n + j) % 2 ^ g.tvnBits))) →
    ScanOk g now s n (scanVec g s n (boundary g now n % 2 ^ g.tvnBits) turns
      ((boundary g now n + k) % 2 ^ g.tvnBits) r) := by
  have hpow : 2 ^ g.bits (n + 1) = 2 ^ g.tvnBits * 2 ^ g.bits n := by
    rw [bits_succ, Nat.pow_add, Nat.mul_comm]
  intro turns
  induction turns with
  | zero => intro k r hk hlt; omega
  | succ turns ih =>
    intro k r hk hlt hr hempty
    have hlook := h.look hlt hr hempty
    rw [scanVec]
    simp only
    split
    next hfound =>
      have hahead := hlook hfound
      split
      next hwrap =>
        -- the block ends before the end of the first block of the next vector
        obtain ⟨h1, h2, h3, h4⟩ := hahead
        refine ⟨h1, h2, h3, fun hf => ⟨(h4 hf).1, Int.lt_of_lt_of_le (h4 hf).2 (Int.ofNat_le.mpr ?_)⟩⟩
        rw [hpow, ← Nat.mul_assoc]
        refine Nat.mul_le_mul_right _ ?_
        have := @boundary_le_succ g now n
        rw [Nat.succ_mul]
        omega
      next hwrap =>
        rw [not_or, Nat.not_lt] at hwrap
        have hin : boundary g now n % 2 ^ g.tvnBits + k < 2 ^ g.tvnBits := by
          by_contra hge
          exact absurd ((slot_lt_iff hlt).mpr (not_lt.mp hge)) (not_lt.mpr hwrap.2)
        refine ⟨hahead.word, hahead.near, fun slot t ht hlevel hd hover => ?_⟩
        by_cases hlow : slot.level ≤ n + 1
        · exact (hahead.found hfound).1 slot t ht (by omega) hd hover
        · cases slot with
          | tv1 i => exact absurd (Nat.zero_le _) hlow
          | tvn m i =>
            have hbehind := h.behind ht (show n < m by simp only [Slot.level] at hlow; omega)
            have hblock := Nat.mul_le_mul_right (2 ^ g.bits n) (lt_boundary_succ hwrap.1 hin)
            rw [Nat.mul_assoc, ← hpow] at hblock
            have := (hahead.found hfound).2
            omega
    next hnot =>
      obtain ⟨h1, h2, h3, h4, h5, h6⟩ := lookAt_spec
        (s.vec (.tvn n ((boundary g now n + k) % 2 ^ g.tvnBits))) r (fun t ht =>
          h.near _ t ht) hr.word hr.near
      generalize lookAt g s _ r = r' at *
      have hempty' : ∀ j < k + 1, Skipped s (.tvn n ((boundary g now n + j) % 2 ^ g.tvnBits)) := by
        intro j hj t ht
        rcases Nat.lt_succ_iff_lt_or_eq.mp hj with hj | rfl
        · exact hempty j hj t ht
        · by_contra hd
          exact hnot (h4 t ht (Bool.eq_false_iff.mpr hd)).1
      have hold : r.1 = false := Bool.eq_false_iff.mpr (mt h6 hnot)
      rw [slot_succ]
      split
      next hend =>
        -- nothing on this vector
        have hall := (slot_succ_eq_iff hlt).mp hend
        refine ⟨h1, h2, fun _ slot t ht hlevel => ?_, fun hf => absurd hf hnot⟩
        by_cases hlow : slot.level ≤ n
        · exact hr.nothing hold slot t ht hlow
        · cases slot with
          | tv1 i => exact absurd (Nat.zero_le n) hlow
          | tvn n' i =>
            obtain rfl : n' = n := by simp only [Slot.level] at hlevel hlow; omega
            obtain ⟨_, k', δ, hk', rfl, _⟩ := h.tvn _ _ t ht
            exact hempty' k' (by omega) t ht
      next hend =>
        have hne := mt (slot_succ_eq_iff hlt).mpr hend
        exact ih (k + 1) r' (by omega) (by omega) ⟨h1, h2, fun _ => hr.nothing hold,
          fun hf => absurd hf hnot⟩ hempty'

/-- **The loop over the vectors.** -/
theorem searchVecs_spec (h : Located g now s) (left : Nat) :
    ∀ (n timerJiffies : Nat) (r : Bool × Nat), n + left = 4 →
    timerJiffies ≡ boundary g now n [MOD 2 ^ (left * g.tvnBits)] →
    Ahead g now s n ((boundary g now n + 1) * 2 ^ g.bits n) r →
    searchVecs g s left n timerJiffies r < 2 ^ g.w ∧
    Near g s.timerJiffies (searchVecs g s left n timerJiffies r) ∧
      NotAfter g s 5 (searchVecs g s left n timerJiffies r) := by
  induction left with
  | zero =>
    intro n timerJiffies r hn _ hr
    obtain rfl : n = 4 := hn
    refine ⟨hr.word, hr.near, fun slot t ht hlevel hd hover => ?_⟩
    cases hf : r.1 with
    | true => exact (hr.found hf).1 slot t ht hlevel hd hover
    | false => exact absurd (hr.nothing hf slot t ht (by omega)) (by simp [hd])
  | succ left ih =>
    intro n timerJiffies r hn hmod hr
    have hpow : 2 ^ ((left + 1) * g.tvnBits) = 2 ^ g.tvnBits * 2 ^ (left * g.tvnBits) := by
      rw [Nat.succ_mul, Nat.add_comm, Nat.pow_add]
    rw [hpow] at hmod
    have hidx : timerJiffies % 2 ^ g.tvnBits = boundary g now n % 2 ^ g.tvnBits := hmod.of_mul_right _
    have hscan :=
      scanVec_spec h (show n < 4 by omega) (2 ^ g.tvnBits) 0 r (Nat.zero_add _) (Nat.two_pow_pos _) hr
      (fun j hj => absurd hj (Nat.not_lt_zero j))
    rw [searchVecs]
    simp only [hidx]
    generalize scanVec g s n _ _ _ r = res at *
    cases res with
    | returns x => exact hscan
    | goesOn r' =>
      refine ih (n + 1) _ r' (by omega) ?_ hscan
      rw [boundary_succ]
      refine nextCascade_modEq ?_ hmod
      rw [← hpow]
      refine Nat.pow_dvd_pow 2 ?_
      have hfit := g.fits
      have hwide := g.wide
      have := Nat.mul_le_mul_right g.tvnBits (show left + 1 ≤ 4 by omega)
      omega

/-- The first list of `tv1` with a timer that is not deferrable. -/
theorem scanTv1_spec (turns : Nat) : ∀ k : Nat, k + turns = 2 ^ g.tvrBits → k < 2 ^ g.tvrBits →
    (∀ j < k, Skipped s (.tv1 ((now + j) % 2 ^ g.tvrBits))) →
    (scanTv1 g s (now % 2 ^ g.tvrBits) turns ((now + k) % 2 ^ g.tvrBits)).elim
      (∀ j < 2 ^ g.tvrBits, Skipped s (.tv1 ((now + j) % 2 ^ g.tvrBits)))
      fun res => ∃ k' < 2 ^ g.tvrBits, res.1 = (now + k') % 2 ^ g.tvrBits ∧ res.2 ∈ s.vec (.tv1 res.1) ∧
        ∀ j < k', Skipped s (.tv1 ((now + j) % 2 ^ g.tvrBits)) := by
  induction turns with
  | zero => intro k hk hlt; omega
  | succ turns ih =>
    intro k hk hlt hempty
    rw [scanTv1]
    cases hf : (s.vec (.tv1 ((now + k) % 2 ^ g.tvrBits))).find? fun nte => !(s.timers nte).deferrable with
    | some nte => exact ⟨k, hlt, rfl, List.mem_of_find?_eq_some hf, hempty⟩
    | none =>
      have hempty' : ∀ j < k + 1, Skipped s (.tv1 ((now + j) % 2 ^ g.tvrBits)) := by
        intro j hj t ht
        rcases Nat.lt_succ_iff_lt_or_eq.mp hj with hj | rfl
        · exact hempty j hj t ht
        · simpa using List.find?_eq_none.mp hf t ht
      simp only [slot_succ]
      split
      next hend => exact fun j hj => hempty' j (by have := (slot_succ_eq_iff hlt).mp hend; omega)
      next hend =>
        have hne := mt (slot_succ_eq_iff hlt).mpr hend
        exact ih (k + 1) (by omega) (by omega) hempty'

/-- **`__next_timer_interrupt` returns a tick that is not later than any timer**, deferrable and overdue ones
    aside. -/
theorem nextTimerInterrupt_le (h : Located g now s) :
    nextTimerInterrupt g s < 2 ^ g.w ∧ Near g s.timerJiffies (nextTimerInterrupt g s) ∧
      NotAfter g s 5 (nextTimerInterrupt g s) := by
  have hidx : s.timerJiffies % 2 ^ g.tvrBits = now % 2 ^ g.tvrBits := by rw [h.clock, mod_tvr]
  have hbound := @le_boundary_mul g now 0
  rw [bits_zero] at hbound
  have hmod : nextCascade g g.tvrBits s.timerJiffies ≡ boundary g now 0 [MOD 2 ^ (4 * g.tvnBits)] := by
    rw [boundary, bits_zero]
    have hdvd : 2 ^ g.tvrBits * 2 ^ (4 * g.tvnBits) ∣ 2 ^ g.w := by
      rw [← Nat.pow_add]
      exact Nat.pow_dvd_pow 2 (g.fits.trans g.wide)
    refine nextCascade_modEq hdvd ?_
    rw [h.clock]
    exact (Nat.mod_modEq now _).of_dvd hdvd
  have hcascade := fun r => searchVecs_spec h 4 0 _ r rfl hmod
  have hscan := @scanTv1_spec T g now s (2 ^ g.tvrBits) 0 (Nat.zero_add _) (Nat.two_pow_pos _)
    fun j hj => absurd hj (Nat.not_lt_zero j)
  rw [Nat.add_zero] at hscan
  unfold nextTimerInterrupt
  simp only [hidx]
  generalize scanTv1 g s _ _ _ = res at *
  cases res with
  | none =>
    have hdelta : NEXT_TIMER_MAX_DELTA < 2 ^ (g.w - 2) := by
      have : 2 ^ 30 ≤ 2 ^ (g.w - 2) := Nat.pow_le_pow_right (by omega) (by have := g.wide; omega)
      unfold NEXT_TIMER_MAX_DELTA
      omega
    have hpos : pos g s.timerJiffies ((s.timerJiffies + NEXT_TIMER_MAX_DELTA) % 2 ^ g.w) =
      NEXT_TIMER_MAX_DELTA := by
      have hhalf := (@pow_quarter g).2
      rw [pos_add (by rw [pos_self]; omega), pos_self, Int.zero_add]
    refine hcascade _ ⟨Nat.mod_lt _ (Nat.two_pow_pos _), ?_, fun _ slot t ht hlevel => ?_,
      fun hf => by cases hf⟩
    · rw [Near, hpos]
      exact hdelta
    · cases slot with
      | tvn n i => exact absurd hlevel (Nat.not_succ_le_zero n)
      | tv1 i =>
        obtain ⟨k, hk, rfl, _⟩ := h.tv1 i t ht
        exact hscan k hk t ht
  | some res =>
    obtain ⟨slot, nte⟩ := res
    obtain ⟨k, hk, hslot, hmem, hempty⟩ := hscan
    obtain ⟨hword, hnear⟩ := h.near _ _ hmem
    simp only at hslot hmem
    obtain ⟨k', hk', hslot', hle, _⟩ := h.tv1 _ _ hmem
    obtain rfl : k = k' := (slot_eq_iff hk hk').mp (hslot.symm.trans hslot')
    have htv1 : NotAfter g s 1 (s.timers nte).expires := by
      intro slot' t ht hlevel hd hover
      cases slot' with
      | tvn n i => exact absurd hlevel (by simp [Slot.level])
      | tv1 i =>
        obtain ⟨j, hj, rfl, _, hpos⟩ := h.tv1 i t ht
        rw [hpos hover]
        by_contra hlt
        exact absurd (hempty j (by omega) t ht) (by simp [hd])
    have hahead : ∀ H : Nat, now + k < H → Ahead g now s 0 H (true, (s.timers nte).expires) :=
      fun H hH => ⟨hword, hnear, fun hf => absurd hf (by simp), fun _ => ⟨htv1, by simp only; omega⟩⟩
    simp only
    split
    next hwrap =>
      refine hcascade _ (hahead _ ?_)
      rw [bits_zero, Nat.succ_mul]
      omega
    next hwrap =>
      rw [not_or, Nat.not_lt] at hwrap
      have hin : now % 2 ^ g.tvrBits + k < 2 ^ g.tvrBits := by
        by_contra hge
        have := (slot_lt_iff hk).mpr (not_lt.mp hge)
        omega
      refine ⟨hword, hnear, fun slot' t ht hlevel hd hover => ?_⟩
      cases slot' with
      | tv1 i => exact htv1 _ t ht Nat.one_pos hd hover
      | tvn n i =>
        -- the first block of `tv2` starts after this turn of `tv1`
        obtain ⟨_, j, δ, _, _, hpos, hle', _⟩ := h.tvn n i t ht
        have hmono := @boundary_mul_mono g now 0 n (Nat.zero_le n)
        rw [bits_zero] at hmono
        rw [Nat.add_mul] at hle'
        have hnow := Nat.div_add_mod now (2 ^ g.tvrBits)
        have hblock : now + k < boundary g now 0 * 2 ^ g.tvrBits := by
          by_contra hge
          have hlt : boundary g now 0 * 2 ^ g.tvrBits < (now / 2 ^ g.tvrBits + 1) * 2 ^ g.tvrBits := by
            rw [Nat.succ_mul, Nat.mul_comm (now / _)]
            omega
          have := Nat.mul_le_mul_right (2 ^ g.tvrBits) (Nat.lt_succ_iff.mp (Nat.lt_of_mul_lt_mul_right hlt))
          rw [Nat.mul_comm (now / _)] at this
          omega
        omega

end LinuxKernel.Timer
