/-
  Bitmaps.

  A bitmap is a function from bit numbers; how far its memory goes is the business of those who use it.

  1. **Searching** — `findNext f size off` is the first bit of `f` from `off` on, or `size` (`findNext_spec`).

  2. **Copying and shifting** — a copy works on whole words, so that it may copy more bits than it was
     asked for, and it copies exactly those of `W * bitsToLongs W nbits`.

  3. **Runs** — `IsRun f a b`: the set bits `a..b`, with nothing set next to them.  A run is determined
     by its first bit (`IsRun.unique`).

  4. **Masks** — `and_two_pow_sub_two_pow`: a mask of the high bits rounds down to a multiple.
-/
import Mathlib

namespace LinuxKernel.Bitmap

abbrev Bits := Nat → Bool

/-- The first set bit from `off` on, below `size`; `size` if there is none. -/
def findNext (f : Bits) (size off : Nat) : Nat := ((List.range' off (size - off)).find? f).getD size

theorem findNext_spec (f : Bits) {size off : Nat} (h : off ≤ size) :
    off ≤ findNext f size off ∧ findNext f size off ≤ size ∧ (∀ i, off ≤ i → i < findNext f size off →
      f i = false) ∧
      (findNext f size off < size → f (findNext f size off) = true) := by
  unfold findNext
  cases hf : (List.range' off (size - off)).find? f with
  | none =>
    rw [Option.getD_none]
    refine ⟨h, Nat.le_refl _, fun i h1 h2 => ?_, fun hlt => absurd hlt (Nat.lt_irrefl _)⟩
    have := List.find?_eq_none.mp hf i (List.mem_range'_1.mpr ⟨h1, by omega⟩)
    simpa using this
  | some j =>
    rw [Option.getD_some]
    obtain ⟨hj, hmem, hbefore⟩ := List.find?_range'_eq_some.mp hf
    obtain ⟨h1, h2⟩ := List.mem_range'_1.mp hmem
    exact ⟨h1, by omega, fun i hi hij => by simpa using hbefore i hi hij, fun _ => hj⟩

/-- `BITS_TO_LONGS` of a signed number of bits, in words of `W` bits -/
def bitsToLongs (W : Nat) (nbits : Int) : Nat := ((nbits + W - 1) % 2 ^ W).toNat / W

/-- Whole words of `src` over those of `dst`. -/
def bitmapCopy (W : Nat) (nbits : Int) (src dst : Bits) : Bits :=
  fun i => if i < W * bitsToLongs W nbits then src i else dst i

/-- Towards bit 0; zeros come in at the end. -/
def bitmapShiftRight (f : Bits) (shift size : Nat) : Bits :=
    fun i => decide (i + shift < size) && f (i + shift)

/-- The words that are copied hold the bits asked for, and no bit beyond the last of these words. -/
theorem bitsToLongs_spec {W : Nat} (hW : 0 < W) {nbits : Nat} (h : nbits + W - 1 < 2 ^ W) :
    nbits ≤ W * bitsToLongs W nbits ∧ W * bitsToLongs W nbits < nbits + W := by
  have hmod : (((nbits : Int) + W - 1) % 2 ^ W).toNat = nbits + W - 1 := by
    have h1 : ((nbits : Int) + W - 1) = ((nbits + W - 1 : Nat) : Int) := by omega
    have h2 : ((2 : Int) ^ W) = ((2 ^ W : Nat) : Int) := by simp
    rw [h1, h2, ← Int.natCast_emod, Int.toNat_natCast, Nat.mod_eq_of_lt h]
  unfold bitsToLongs
  rw [hmod]
  have h1 := Nat.div_add_mod (nbits + W - 1) W
  have h2 := Nat.mod_lt (nbits + W - 1) hW
  omega

/-- The bits `a..b` are set, and those next to them are not. -/
structure IsRun (f : Bits) (a b : Nat) : Prop where
  le : a ≤ b
  set : ∀ i, a ≤ i → i ≤ b → f i = true
  first : a = 0 ∨ f (a - 1) = false
  last : f (b + 1) = false

/-- A run has one end. -/
theorem IsRun.unique {f : Bits} {a b b' : Nat} (h : IsRun f a b) (h' : IsRun f a b') : b = b' := by
  rcases Nat.lt_trichotomy b b' with hb | hb | hb
  · have h1 := h'.set (b + 1) (by have := h.le; omega) hb
    rw [h.last] at h1
    exact Bool.noConfusion h1
  · exact hb
  · have h1 := h.set (b' + 1) (by have := h'.le; omega) hb
    rw [h'.last] at h1
    exact Bool.noConfusion h1

/-- A run that begins inside another one is that run. -/
theorem IsRun.first_eq {f : Bits} {a b a' b' : Nat} (h : IsRun f a b) (h' : IsRun f a' b') (h1 : a ≤ a')
    (h2 : a' ≤ b + 1) : a' = a := by
  rcases Nat.lt_or_ge a a' with hlt | hge
  · rcases h'.first with h0 | hf
    · omega
    · rw [h.set (a' - 1) (by omega) (by omega)] at hf
      exact Bool.noConfusion hf
  · omega

/-! ## Masks -/

variable {w k : Nat}

/-- The bits from `k` up to `w`. -/
theorem testBit_two_pow_sub_two_pow (hk : k ≤ w) (i : Nat) :
    (2 ^ w - 2 ^ k).testBit i = (decide (k ≤ i) && decide (i < w)) := by
  have e : 2 ^ w - 2 ^ k = (2 ^ (w - k) - 1) <<< k := by
    rw [Nat.shiftLeft_eq, Nat.sub_mul, ← Nat.pow_add, Nat.sub_add_cancel hk, Nat.one_mul]
  rw [e, Nat.testBit_shiftLeft, Nat.testBit_two_pow_sub_one]
  by_cases h : k ≤ i
  · simp only [h, decide_true, Bool.true_and, decide_eq_decide]
    omega
  · simp [h]

/-- Clearing the low `k` bits rounds down to a multiple of `2 ^ k`. -/
theorem and_two_pow_sub_two_pow (hk : k ≤ w) {a : Nat} (ha : a < 2 ^ w) :
    a &&& (2 ^ w - 2 ^ k) = a / 2 ^ k * 2 ^ k := by
  rw [← Nat.shiftRight_eq_div_pow, ← Nat.shiftLeft_eq]
  refine Nat.eq_of_testBit_eq fun i => ?_
  rw [Nat.testBit_and, testBit_two_pow_sub_two_pow hk, Nat.testBit_shiftLeft, Nat.testBit_shiftRight]
  by_cases hi : k ≤ i
  · rw [show k + (i - k) = i by omega]
    by_cases hw : i < w
    · simp [hi, hw]
    · have : a.testBit i = false :=
        Nat.testBit_lt_two_pow (Nat.lt_of_lt_of_le ha (Nat.pow_le_pow_right (by omega) (by omega)))
      simp [this]
  · simp [hi]

end LinuxKernel.Bitmap
