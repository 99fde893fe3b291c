/-
  Sequence numbers of 32 bits, and intervals of them.

  1. **Comparison** — `before a b` is the sign of the difference.  It is no order: it is one only on numbers
     that lie within less than half of the circle (`Near c`, counted from a base `c`), where it is the order
     of the distances from the base (`before_iff`).

  2. **Intervals** — `Within x a b` says that the number `x` is in `[a, b)`.  This does not depend on any
     base, and from a base it is the interval of the distances (`within_iff`).
-/
import Mathlib

namespace LinuxKernel.SeqNum

abbrev U32 := BitVec 32
def before (seq1 seq2 : U32) : Bool := (seq1 - seq2).toInt < 0
def after (seq2 seq1 : U32) : Bool := before seq1 seq2

/-- The distance from the base. -/
def off (c x : U32) : Nat := (x - c).toNat

/-- Less than half of the circle from the base. -/
def Near (c x : U32) : Prop := off c x < 2 ^ 31

instance (c x : U32) : Decidable (Near c x) := Nat.decLt ..

/-- The number is in `[a, b)`. -/
def Within (x a b : U32) : Prop := off a x < off a b

variable {a b c x y : U32}

theorem off_lt (c x : U32) : off c x < 2 ^ 32 := (x - c).isLt
theorem off_eq (c x : U32) : off c x = (2 ^ 32 - c.toNat + x.toNat) % 2 ^ 32 := BitVec.toNat_sub ..

theorem before_iff (ha : Near c a) (hb : Near c b) : before a b = true ↔ off c a < off c b := by
  have h := off_eq b a
  unfold Near at ha hb
  rw [off_eq] at ha hb ⊢
  rw [off_eq c b, before, decide_eq_true_iff, BitVec.toInt_neg_iff]
  show 2 ^ 32 ≤ 2 * off b a ↔ _
  omega

theorem after_iff (ha : Near c a) (hb : Near c b) : after a b = true ↔ off c b < off c a := before_iff hb ha

theorem off_inj (h : off c a = off c b) : a = b := by
  rw [off_eq, off_eq] at h
  exact BitVec.eq_of_toNat_eq (by omega)

theorem eq_iff : a = b ↔ off c a = off c b := ⟨fun e => by rw [e], off_inj⟩

theorem within_iff (hab : off c a ≤ off c b) : Within x a b ↔ off c a ≤ off c x ∧ off c x < off c b := by
  unfold Within
  simp only [off_eq] at hab ⊢
  omega

/-- From another base. -/
theorem off_of_le (hab : off c a ≤ off c b) : off c b = off c a + off a b := by
  simp only [off_eq] at hab ⊢
  omega

/-- The number at a distance from the base. -/
theorem exists_off {n : Nat} (hn : n < 2 ^ 32) : ∃ x, off c x = n := by
  refine ⟨c + BitVec.ofNat 32 n, ?_⟩
  rw [off_eq, BitVec.toNat_add, BitVec.toNat_ofNat]
  omega

theorem off_add {n : Nat} (h : off c x + n < 2 ^ 32) : off c (x + BitVec.ofNat 32 n) = off c x + n := by
  rw [off_eq] at h ⊢
  rw [off_eq, BitVec.toNat_add, BitVec.toNat_ofNat]
  omega

end LinuxKernel.SeqNum
