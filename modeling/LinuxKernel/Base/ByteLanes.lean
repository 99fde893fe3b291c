/-
  Words made of bytes.

  1. **Packing** — `pack n f` is the number with the bytes `f 0, …, f (n - 1)`, least significant first;
     `byteAt` reads a byte back.  Bitwise operations act byte by byte (`pack_and`, `pack_xor`).

  2. **Layouts** — how a machine keeps a word of `n` bytes in memory: `load` and `store`, for either byte
     order. `word` is the word that `load` finds over the bytes `g`, so that what is computed on words is
     known byte by byte.
-/
import Mathlib

namespace LinuxKernel.ByteLanes

/-! ## Packing -/

/-- The number with the bytes `f 0, …, f (n - 1)`. -/
def pack : Nat → (Nat → BitVec 8) → Nat
  | 0, _ => 0
  | n + 1, f => (f 0).toNat + 256 * pack n fun j => f (j + 1)

def byteAt (v j : Nat) : BitVec 8 := BitVec.ofNat 8 (v / 256 ^ j)

theorem pack_lt (n : Nat) : ∀ f : Nat → BitVec 8, pack n f < 256 ^ n := by
  induction n with
  | zero => intro f; exact Nat.one_pos
  | succ n ih =>
    intro f
    have h0 := (f 0).isLt
    have h1 := ih fun j => f (j + 1)
    rw [pack, Nat.pow_succ]
    omega

theorem byteAt_pack (n : Nat) : ∀ (f : Nat → BitVec 8) (j : Nat), j < n → byteAt (pack n f) j = f j := by
  induction n with
  | zero => intro f j hj; omega
  | succ n ih =>
    intro f j hj
    have h0 := (f 0).isLt
    cases j with
    | zero =>
      apply BitVec.eq_of_toNat_eq
      rw [byteAt, pack, BitVec.toNat_ofNat]
      omega
    | succ j =>
      have hdiv : pack (n + 1) f / 256 ^ (j + 1) = pack n (fun j => f (j + 1)) / 256 ^ j := by
        rw [Nat.pow_succ, Nat.mul_comm, ← Nat.div_div_eq_div_mul, pack]
        congr 1
        omega
      rw [byteAt, hdiv]
      exact ih (fun j => f (j + 1)) j (by omega)

section Bitwise
variable {op : Nat → Nat → Nat} {b : Bool → Bool →
  Bool} (hbit : ∀ x y i, (op x y).testBit i = b (x.testBit i) (y.testBit i))
include hbit

/-- Bitwise operations act on the lowest byte and on the rest. -/
theorem bitwise_lanes {a c : Nat} (x y : Nat) (ha : a < 2 ^ 8) (hc : c < 2 ^ 8) (hac : op a c < 2 ^ 8) :
    op (a + 256 * x) (c + 256 * y) = op a c + 256 * op x y := by
  apply Nat.eq_of_testBit_eq
  intro i
  rw [hbit, Nat.add_comm a, Nat.add_comm c, Nat.add_comm (op a c), Nat.testBit_two_pow_mul_add (i := 8) x ha,
    Nat.testBit_two_pow_mul_add (i := 8) y hc, Nat.testBit_two_pow_mul_add (i := 8) _ hac]
  split
  · rw [hbit]
  · rw [hbit]

theorem pack_bitwise {op8 : BitVec 8 → BitVec 8 → BitVec 8}
    (hbyte : ∀ x y, (op8 x y).toNat = op x.toNat y.toNat)
    (h0 : op 0 0 = 0) (n : Nat) : ∀ f g, op (pack n f) (pack n g) = pack n fun j => op8 (f j) (g j) := by
  induction n with
  | zero => exact fun _ _ => h0
  | succ n ih =>
    intro f g
    rw [pack, pack, pack, bitwise_lanes hbit _ _ (f 0).isLt (g 0).isLt (hbyte .. ▸ (op8 ..).isLt), ih, hbyte]

end Bitwise

theorem pack_and (n : Nat) (f g : Nat → BitVec 8) : pack n f &&& pack n g = pack n fun j => f j &&& g j :=
  pack_bitwise Nat.testBit_and BitVec.toNat_and rfl n f g

theorem pack_xor (n : Nat) (f g : Nat → BitVec 8) : pack n f ^^^ pack n g = pack n fun j => f j ^^^ g j :=
  pack_bitwise Nat.testBit_xor BitVec.toNat_xor rfl n f g

/-- A factor that every byte has. -/
theorem pack_mul (c n : Nat) : ∀ f g : Nat → BitVec 8, (∀ j, (f j).toNat = c * (g j).toNat) →
    pack n f = c * pack n g := by
  induction n with
  | zero => intro f g _; rw [pack, pack, Nat.mul_zero]
  | succ n ih =>
    intro f g h
    rw [pack, pack, h 0, ih _ _ fun j => h (j + 1)]
    ring

/-! ## Layouts -/

/-- A word of `nsize` bytes in memory. -/
structure Layout where
  nsize : Nat
  bigEndian : Bool
deriving DecidableEq

variable (L : Layout)

/-- The place, in the order of significance, of byte `j` of a word; and the other way round. -/
def Layout.lane (j : Nat) : Nat := if L.bigEndian then L.nsize - 1 - j else j

/-- The word over the bytes `g 0, …, g (nsize - 1)` of memory. -/
def Layout.word (g : Nat → BitVec 8) : BitVec (8 * L.nsize) :=
    BitVec.ofNat _ (pack L.nsize fun j => g (L.lane j))
def Layout.load (f : Nat → BitVec 8) (d : Nat) : BitVec (8 * L.nsize) := L.word fun j => f (d + j)

def Layout.store (f : Nat → BitVec 8) (d : Nat) (w : BitVec (8 * L.nsize)) : Nat → BitVec 8 :=
  fun i => if d ≤ i ∧ i < d + L.nsize then byteAt w.toNat (L.lane (i - d)) else f i

variable {L}

theorem lane_lt {j : Nat} (h : j < L.nsize) : L.lane j < L.nsize := by
  unfold Layout.lane
  split <;> omega

theorem lane_lane {j : Nat} (h : j < L.nsize) : L.lane (L.lane j) = j := by
  unfold Layout.lane
  split <;> omega

theorem two_pow_nsize : 2 ^ (8 * L.nsize) = 256 ^ L.nsize := Nat.pow_mul 2 8 L.nsize

theorem toNat_word (g : Nat → BitVec 8) : (L.word g).toNat = pack L.nsize fun j => g (L.lane j) := by
  rw [Layout.word, BitVec.toNat_ofNat, two_pow_nsize]
  exact Nat.mod_eq_of_lt (pack_lt _ _)

/-- **What is stored** over the bytes of a word. -/
theorem store_word (f g : Nat → BitVec 8) (d : Nat) :
    L.store f d (L.word g) = fun i => if d ≤ i ∧ i < d + L.nsize then g (i - d) else f i := by
  funext i
  unfold Layout.store
  split
  · rename_i h
    have hlt : i - d < L.nsize := by omega
    rw [toNat_word, byteAt_pack _ _ _ (lane_lt hlt), lane_lane hlt]
  · rfl

theorem word_xor (f g : Nat → BitVec 8) : L.word f ^^^ L.word g = L.word fun j => f j ^^^ g j := by
  apply BitVec.eq_of_toNat_eq
  rw [BitVec.toNat_xor, toNat_word, toNat_word, toNat_word, pack_xor]

theorem word_and (f g : Nat → BitVec 8) : L.word f &&& L.word g = L.word fun j => f j &&& g j := by
  apply BitVec.eq_of_toNat_eq
  rw [BitVec.toNat_and, toNat_word, toNat_word, toNat_word, pack_and]

end LinuxKernel.ByteLanes
