/-
  Codes with two parities, over a commutative ring of characteristic two.

  The data are `d 0, …, d (n - 1)`; the parity for `g` is the sum of the `g ^ z * d z`.  With `g = 1` it
  is the plain sum.

  1. **Horner's scheme** (`horner_eq`) — the parity, computed from the highest datum downwards.

  2. **Differences** (`parity_one`, `parity_two`) — the parities of data that differ in one or in two places.

  3. **Recovery** (`recover_one`, `recover_two`) — what differs is found from the differences of the
     parities, given the inverses of `g ^ a`, or of `g ^ (b - a) + 1` and `g ^ a + g ^ b`.
-/
import Mathlib

namespace LinuxKernel.DoubleParity

open Function Finset
variable {R : Type*} [CommRing R]

/-- The parity for `g`. -/
def parity (g : R) (d : Nat → R) (n : Nat) : R := ∑ z ∈ range n, g ^ z * d z

/-- Horner's scheme, downwards from datum `z - 1`. -/
def horner (g : R) (d : Nat → R) : Nat → R → R
  | 0, acc => acc
  | z + 1, acc => horner g d z (g * acc + d z)

theorem horner_eq (g : R) (d : Nat → R) (z : Nat) :
    ∀ acc : R, horner g d z acc = g ^ z * acc + parity g d z := by
  induction z with
  | zero => intro acc; simp [horner, parity]
  | succ z ih =>
    intro acc
    rw [horner, ih, parity, parity, sum_range_succ]
    ring

/-- The whole parity, from the highest datum. -/
theorem horner_top (g : R) (d : Nat → R) (z : Nat) : horner g d z (d z) = parity g d (z + 1) := by
  rw [horner_eq, parity, parity, sum_range_succ, add_comm]

section Two
variable (h2 : (2 : R) = 0) {g : R} {d d' : Nat → R} {n a b : Nat}
include h2

/-- Data that differ in one place. -/
theorem parity_one (ha : a < n) (h : ∀ z < n, z ≠ a → d' z = d z) :
    parity g d n + parity g d' n = g ^ a * (d a + d' a) := by
  have hz : ∀ z ∈ range n, z ≠ a → g ^ z * d z + g ^ z * d' z = 0 := by
    intro z hz hza
    rw [h z (mem_range.mp hz) hza]
    linear_combination (g ^ z * d z) * h2
  rw [parity, parity, ← sum_add_distrib, sum_eq_single_of_mem a (mem_range.mpr ha) hz]
  ring

/-- Data that differ in two places. -/
theorem parity_two (hab : a < b) (hb : b < n) (h : ∀ z < n, z ≠ a → z ≠ b → d' z = d z) :
    parity g d n + parity g d' n = g ^ a * (d a + d' a) + g ^ b * (d b + d' b) := by
  -- first change the datum at `a`, then the one at `b`
  have h1 : parity g d n + parity g (update d a (d' a)) n = g ^ a * (d a + update d a (d' a) a) :=
    parity_one h2 (by omega) fun z _ hz => update_of_ne hz _ _
  have h₂ : parity g (update d a (d' a)) n + parity g d' n = g ^ b * (update d a (d' a) b + d' b) := by
    refine parity_one h2 hb fun z hz hzb => ?_
    by_cases hza : z = a
    · rw [hza, update_self]
    · rw [update_of_ne hza, h z hz hza hzb]
  rw [update_self] at h1
  rw [update_of_ne (by omega : b ≠ a)] at h₂
  linear_combination h1 + h₂ - parity g (update d a (d' a)) n * h2

theorem recover_one {u : R} (ha : a < n) (h : ∀ z < n, z ≠ a → d' z = d z) (hu : u * g ^ a = 1) :
    u * (parity g d n + parity g d' n) = d a + d' a := by
  rw [parity_one h2 ha h]
  linear_combination (d a + d' a) * hu

/-- **Recovery of two data** from the differences of the two parities. -/
theorem recover_two {u v : R} (hab : a < b) (hb : b < n) (h : ∀ z < n, z ≠ a → z ≠ b → d' z = d z)
    (hu : u * (g ^ a + g ^ b) = 1) (hv : v * (g ^ (b - a) + 1) = 1) :
    v * (parity 1 d n + parity 1 d' n) + u * (parity g d n + parity g d' n) = d b + d' b := by
  rw [parity_two h2 hab hb h, parity_two h2 hab hb h, one_pow, one_pow, one_mul, one_mul]
  have hpow : g ^ b = g ^ a * g ^ (b - a) := by
    rw [← pow_add]
    congr 1
    omega
  -- both multipliers have the denominator `g ^ a + g ^ b`
  have huv : v = u * g ^ a := by
    linear_combination (-v) * hu + u * g ^ a * hv + u * v * hpow
  rw [huv]
  linear_combination (d b + d' b) * hu + u * g ^ a * (d a + d' a) * h2

end Two
end LinuxKernel.DoubleParity
