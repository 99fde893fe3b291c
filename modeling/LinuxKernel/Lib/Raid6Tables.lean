/-
  The tables of RAID-6 (`lib/raid6/mktables.c`).

  1. **The program** — `gfmul`, `gfpow` and the four tables that `main` prints, as functions of the index.

  2. **The product is linear in both arguments** (`gfmul_xor_left`, `gfmul_xor_right`), and multiplying
     from the right twice can be done in either order (`gfmul_right_comm`).  With `gfmul 1 b = b` this
     makes bytes a commutative ring, `Gf`, of characteristic two: no table of products is ever enumerated.

  3. **Powers and inverses** — the entries of `raid6_gfexp` below 255 are the powers of 2, and are
     neither 0 nor, after the first, 1; `raid6_gfinv` holds inverses.
-/
import Mathlib

namespace LinuxKernel.Raid6

abbrev U8 := BitVec 8

/-! ## The program -/

/-- `(a << 1) ^ (a & 0x80 ? 0x1d : 0)` -/
def xtime (a : U8) : U8 := (a <<< 1) ^^^ (if a &&& 0x80#8 ≠ 0#8 then 0x1d#8 else 0#8)

/-- The loop of `gfmul`; a byte has been shifted out after eight turns. -/
def gfmulLoop : Nat → U8 → U8 → U8 → U8
  | 0, v, _, _ => v
  | turns + 1, v, a, b =>
    if b = 0#8 then v else gfmulLoop turns (if b &&& 1#8 ≠ 0#8 then v ^^^ a else v) (xtime a) (b >>> 1)

def gfmul (a b : U8) : U8 := gfmulLoop 8 0#8 a b

/-- The loop of `gfpow`; the exponent is below 255, and so it has been shifted out after eight turns. -/
def gfpowLoop : Nat → U8 → U8 → Nat → U8
  | 0, v, _, _ => v
  | turns + 1, v, a, b =>
    if b = 0 then v else gfpowLoop turns (if b % 2 = 1 then gfmul v a else v) (gfmul a a) (b / 2)

def gfpow (a : U8) (b : Int) : U8 :=
  let b := b.tmod 255
  let b := if b < 0 then b + 255 else b
  gfpowLoop 8 1#8 a b.toNat

def raid6Gfmul (i j : U8) : U8 := gfmul i j

/-- `exptbl`: the entries are made one after the other. -/
def raid6Gfexp : Nat → U8
  | 0 => 1#8
  | i + 1 =>
    let v := gfmul (raid6Gfexp i) 2#8
    if v = 1#8 then 0#8 else v

def raid6Gfinv (i : U8) : U8 := gfpow i 254
def raid6Gfexi (i : Nat) : U8 := raid6Gfinv (raid6Gfexp i ^^^ 1#8)

/-! ## The product is linear -/

/-- What the loop adds to `v`. -/
def terms : Nat → U8 → U8 → U8
  | 0, _, _ => 0#8
  | n + 1, a, b => (if b &&& 1#8 ≠ 0#8 then a else 0#8) ^^^ terms n (xtime a) (b >>> 1)

theorem terms_zero (n : Nat) : ∀ a : U8, terms n a 0#8 = 0#8 := by
  induction n with
  | zero => intro a; rfl
  | succ n ih =>
    intro a
    rw [terms, BitVec.zero_ushiftRight, ih, BitVec.zero_and, if_neg (fun h => h rfl), BitVec.xor_zero]

theorem gfmulLoop_eq (n : Nat) : ∀ v a b : U8, gfmulLoop n v a b = v ^^^ terms n a b := by
  induction n with
  | zero => intro v a b; exact (BitVec.xor_zero).symm
  | succ n ih =>
    intro v a b
    rw [gfmulLoop]
    by_cases hb : b = 0#8
    · rw [if_pos hb, hb, terms_zero, BitVec.xor_zero]
    · rw [if_neg hb, ih, terms]
      by_cases hbit : b &&& 1#8 ≠ 0#8
      · rw [if_pos hbit, if_pos hbit, BitVec.xor_assoc]
      · rw [if_neg hbit, if_neg hbit, BitVec.zero_xor]

theorem gfmul_eq (a b : U8) : gfmul a b = terms 8 a b := by
  rw [gfmul, gfmulLoop_eq, BitVec.zero_xor]

/-- A test of one bit, of a sum. -/
theorem bit_xor {a b m : U8} {x : U8} (hm : ∀ c : U8, c &&& m = 0#8 ∨ c &&& m = m) (hne : m ≠ 0#8) :
    (if (a ^^^ b) &&& m ≠ 0#8 then x else 0#8) =
      (if a &&& m ≠ 0#8 then x else 0#8) ^^^ (if b &&& m ≠ 0#8 then x else 0#8) := by
  have hd : (a ^^^ b) &&& m = (a &&& m) ^^^ (b &&& m) := by
    ext i hi
    rw [BitVec.getElem_and, BitVec.getElem_xor, BitVec.getElem_xor, BitVec.getElem_and, BitVec.getElem_and,
      Bool.and_xor_distrib_right]
  rw [hd]
  rcases hm a with ha | ha <;> rcases hm b with hb | hb <;> simp [ha, hb, hne]

theorem high_bit : ∀ c : U8, c &&& 0x80#8 = 0#8 ∨ c &&& 0x80#8 = 0x80#8 := by decide
theorem low_bit : ∀ c : U8, c &&& 1#8 = 0#8 ∨ c &&& 1#8 = 1#8 := by decide

theorem xtime_xor (a b : U8) : xtime (a ^^^ b) = xtime a ^^^ xtime b := by
  unfold xtime
  rw [bit_xor high_bit (by decide), BitVec.shiftLeft_xor_distrib]
  ac_rfl

theorem terms_xor_left (n : Nat) : ∀ a a' b : U8, terms n (a ^^^ a') b = terms n a b ^^^ terms n a' b := by
  induction n with
  | zero => intro a a' b; exact BitVec.xor_zero.symm
  | succ n ih =>
    intro a a' b
    rw [terms, terms, terms, xtime_xor, ih]
    split
    · ac_rfl
    · rw [BitVec.zero_xor, BitVec.zero_xor, BitVec.zero_xor]

theorem terms_xor_right (n : Nat) : ∀ a b b' : U8, terms n a (b ^^^ b') = terms n a b ^^^ terms n a b' := by
  induction n with
  | zero => intro a b b'; exact BitVec.xor_zero.symm
  | succ n ih =>
    intro a b b'
    rw [terms, terms, terms, bit_xor low_bit (by decide), BitVec.ushiftRight_xor_distrib, ih]
    ac_rfl

theorem gfmul_xor_left (a a' b : U8) : gfmul (a ^^^ a') b = gfmul a b ^^^ gfmul a' b := by
  rw [gfmul_eq, gfmul_eq, gfmul_eq, terms_xor_left]

theorem gfmul_xor_right (a b b' : U8) : gfmul a (b ^^^ b') = gfmul a b ^^^ gfmul a b' := by
  rw [gfmul_eq, gfmul_eq, gfmul_eq, terms_xor_right]

theorem zero_gfmul (b : U8) : gfmul 0#8 b = 0#8 := by
  have h := gfmul_xor_left 0#8 0#8 b
  rw [BitVec.xor_self, BitVec.xor_self] at h
  exact h

theorem terms_xtime : ∀ (n : Nat) (a b : U8), terms n (xtime a) b = xtime (terms n a b) := by
  intro n
  have h0 : xtime 0#8 = 0#8 := by decide
  induction n with
  | zero => intro a b; exact h0.symm
  | succ n ih =>
    intro a b
    rw [terms, terms, ih, xtime_xor]
    split
    · rfl
    · rw [h0]

/-- **Multiplying from the right twice**, in either order. -/
theorem gfmul_right_comm (a b c : U8) : gfmul (gfmul a b) c = gfmul (gfmul a c) b := by
  have h : ∀ (n : Nat) (a c : U8), terms n (gfmul a b) c = gfmul (terms n a c) b := by
    intro n
    induction n with
    | zero => intro a c; exact (zero_gfmul b).symm
    | succ n ih =>
      intro a c
      rw [terms, terms, gfmul_xor_left, ← ih]
      have hx : gfmul (xtime a) b = xtime (gfmul a b) := by rw [gfmul_eq, gfmul_eq, terms_xtime]
      rw [hx]
      split
      · rfl
      · rw [zero_gfmul]
  rw [gfmul_eq (gfmul a b) c, h, ← gfmul_eq]

theorem one_gfmul : ∀ b : U8, gfmul 1#8 b = b := by decide +kernel

theorem gfmul_comm (a b : U8) : gfmul a b = gfmul b a := by
  have h := gfmul_right_comm 1#8 a b
  rw [one_gfmul, one_gfmul] at h
  exact h

theorem gfmul_assoc (a b c : U8) : gfmul (gfmul a b) c = gfmul a (gfmul b c) := by
  rw [gfmul_comm a b, gfmul_right_comm, gfmul_comm]

/-! ## The ring -/

/-- A byte, as an element of the ring. -/
@[ext]
structure Gf where
  byte : U8

namespace Gf

instance : Add Gf := ⟨fun x y => ⟨x.byte ^^^ y.byte⟩⟩
instance : Mul Gf := ⟨fun x y => ⟨gfmul x.byte y.byte⟩⟩
instance : Neg Gf := ⟨fun x => x⟩
instance : Zero Gf := ⟨⟨0#8⟩⟩
instance : One Gf := ⟨⟨1#8⟩⟩

/-- **Bytes are a commutative ring.** -/
instance : CommRing Gf :=
  CommRing.ofMinimalAxioms (fun _ _ _ => Gf.ext (BitVec.xor_assoc ..)) (fun _ => Gf.ext (BitVec.zero_xor ..))
    (fun _ => Gf.ext (BitVec.xor_self ..))
    (fun _ _ _ => Gf.ext (gfmul_assoc ..))
    (fun _ _ => Gf.ext (gfmul_comm ..))
    (fun _ => Gf.ext (one_gfmul ..))
    (fun _ _ _ => Gf.ext (gfmul_xor_right ..))

theorem byte_add (x y : Gf) : (x + y).byte = x.byte ^^^ y.byte := rfl
theorem byte_mul (x y : Gf) : (x * y).byte = gfmul x.byte y.byte := rfl
theorem byte_one : (1 : Gf).byte = 1#8 := rfl

theorem two_eq_zero : (2 : Gf) = 0 := by
  rw [← one_add_one_eq_two]
  exact Gf.ext (BitVec.xor_self ..)

end Gf

/-! ## Powers and inverses -/

/-- The element 2, whose powers are the multipliers of the Q parity. -/
def gen : Gf := ⟨2#8⟩

/-- Multiplying by 2 is the step of the loop. -/
theorem gfmul_two : ∀ a : U8, gfmul a 2#8 = xtime a := by decide +kernel
theorem gfexp_last : raid6Gfexp 254 ≠ 0#8 := by decide +kernel

/-- No entry below 255 is zero: a zero would be followed by zeros. -/
theorem gfexp_ne_zero : ∀ k ≤ 254, raid6Gfexp (254 - k) ≠ 0#8 := by
  intro k
  induction k with
  | zero => intro _; exact gfexp_last
  | succ k ih =>
    intro hk h0
    refine ih (by omega) ?_
    rw [show 254 - k = 254 - (k + 1) + 1 by omega, raid6Gfexp, h0, zero_gfmul]
    rfl

theorem gfexp_succ {k : Nat} (hk : k + 1 < 255) :
    raid6Gfexp (k + 1) = gfmul (raid6Gfexp k) 2#8 ∧ raid6Gfexp (k + 1) ≠ 1#8 := by
  have hne := gfexp_ne_zero (254 - (k + 1)) (by omega)
  rw [show 254 - (254 - (k + 1)) = k + 1 by omega, raid6Gfexp] at hne
  rw [raid6Gfexp]
  by_cases h1 : gfmul (raid6Gfexp k) 2#8 = 1#8
  · rw [if_pos h1] at hne
    exact absurd rfl hne
  · rw [if_neg h1]
    exact ⟨rfl, h1⟩

/-- **The table of exponents.** -/
theorem gfexp_eq : ∀ k < 255, (⟨raid6Gfexp k⟩ : Gf) = gen ^ k := by
  intro k
  induction k with
  | zero => intro _; exact (pow_zero gen).symm
  | succ k ih =>
    intro hk
    rw [pow_succ, ← ih (by omega), (gfexp_succ hk).1]
    rfl

/-- After 255 steps the powers start again. -/
theorem gen_pow_255 : gen ^ 255 = 1 := by
  have hmul : ∀ v : U8, gfmul v 2#8 = 1#8 → (⟨v⟩ : Gf) * gen = 1 := fun v h => Gf.ext h
  rw [pow_succ, ← gfexp_eq 254 (by omega)]
  exact hmul _ (by decide +kernel)

theorem gen_pow_ne_zero {k : Nat} (hk : k < 255) : gen ^ k ≠ 0 := by
  rw [← gfexp_eq k hk]
  intro e
  have hne := gfexp_ne_zero (254 - k) (by omega)
  rw [show 254 - (254 - k) = k by omega] at hne
  exact hne (congrArg Gf.byte e)

/-- The powers of 2 do not return to 1 before the 255th. -/
theorem gen_pow_add_one_ne_zero {k : Nat} (h0 : 0 < k) (hk : k < 255) : gen ^ k + 1 ≠ 0 := by
  obtain ⟨k, rfl⟩ : ∃ j, k = j + 1 := ⟨k - 1, by omega⟩
  intro e
  have hone : gen ^ (k + 1) = 1 := by
    calc gen ^ (k + 1) = gen ^ (k + 1) + 1 + 1 - 2 := by ring
      _ = 1 := by rw [e, Gf.two_eq_zero]; ring
  rw [← gfexp_eq _ hk] at hone
  exact (gfexp_succ hk).2 (congrArg Gf.byte hone)

theorem gen_pow_add_ne_zero {a b : Nat} (hab : a < b) (hb : b < 255) : gen ^ a + gen ^ b ≠ 0 := by
  intro e
  refine gen_pow_add_one_ne_zero (by omega : 0 < b - a) (by omega) ?_
  have hpow : gen ^ b = gen ^ a * gen ^ (b - a) := by
    rw [← pow_add]
    congr 1
    omega
  have hu : gen ^ (255 - a) * gen ^ a = 1 := by
    rw [← pow_add, show 255 - a + a = 255 by omega, gen_pow_255]
  rw [hpow] at e
  linear_combination gen ^ (255 - a) * e - (gen ^ (b - a) + 1) * hu

theorem gen_pow_inj {a b : Nat} (ha : a < 255) (hb : b < 255) (h : gen ^ a = gen ^ b) : a = b := by
  by_contra hne
  rcases Nat.lt_or_gt_of_ne hne with hlt | hlt
  · exact gen_pow_add_ne_zero hlt hb (by rw [h]; linear_combination gen ^ b * Gf.two_eq_zero)
  · exact gen_pow_add_ne_zero hlt ha (by rw [h]; linear_combination gen ^ b * Gf.two_eq_zero)

/-- **Every byte but 0 is a power of 2**: there are 255 of them, and as many powers. -/
theorem exists_gen_pow {x : Gf} (h : x ≠ 0) : ∃ k < 255, x = gen ^ k := by
  have hinj : Set.InjOn (fun k => (gen ^ k).byte.toNat) (Finset.range 255) := by
    intro a ha b hb e
    exact gen_pow_inj (Finset.mem_range.mp ha) (Finset.mem_range.mp hb) (Gf.ext (BitVec.eq_of_toNat_eq e))
  have hsub : (Finset.range 255).image (fun k => (gen ^ k).byte.toNat) ⊆ Finset.Ico 1 256 := by
    intro m hm
    obtain ⟨k, hk, rfl⟩ := Finset.mem_image.mp hm
    have hne := gen_pow_ne_zero (Finset.mem_range.mp hk)
    refine Finset.mem_Ico.mpr ⟨Nat.one_le_iff_ne_zero.mpr fun e => hne ?_, (gen ^ k).byte.isLt⟩
    exact Gf.ext (BitVec.eq_of_toNat_eq e)
  have heq := Finset.eq_of_subset_of_card_le hsub (by
    rw [Finset.card_image_of_injOn hinj, Finset.card_range, Nat.card_Ico])
  have hx : x.byte.toNat ∈ Finset.Ico 1 256 := by
    refine Finset.mem_Ico.mpr ⟨Nat.one_le_iff_ne_zero.mpr fun e => h ?_, x.byte.isLt⟩
    exact Gf.ext (BitVec.eq_of_toNat_eq e)
  rw [← heq] at hx
  obtain ⟨k, hk, e⟩ := Finset.mem_image.mp hx
  exact ⟨k, Finset.mem_range.mp hk, Gf.ext (BitVec.eq_of_toNat_eq e.symm)⟩

/-- The loop of `gfpow` multiplies by a power. -/
theorem gfpowLoop_eq (n : Nat) :
    ∀ (v a : U8) (b : Nat), b < 2 ^ n → (⟨gfpowLoop n v a b⟩ : Gf) = ⟨v⟩ * ⟨a⟩ ^ b := by
  induction n with
  | zero =>
    intro v a b hb
    obtain rfl : b = 0 := by omega
    rw [pow_zero, mul_one, gfpowLoop]
  | succ n ih =>
    intro v a b hb
    rw [gfpowLoop]
    by_cases h0 : b = 0
    · rw [if_pos h0, h0, pow_zero, mul_one]
    · rw [if_neg h0, ih _ _ _ (by omega)]
      have hsq : (⟨gfmul a a⟩ : Gf) = ⟨a⟩ ^ 2 := by rw [pow_two]; rfl
      rw [hsq, ← pow_mul]
      by_cases hbit : b % 2 = 1
      · have hmul : (⟨gfmul v a⟩ : Gf) = ⟨v⟩ * ⟨a⟩ := rfl
        rw [if_pos hbit, hmul, mul_assoc, ← pow_succ']
        congr 2
        omega
      · rw [if_neg hbit]
        congr 2
        omega

/-- **The table of inverses.** -/
theorem gfinv_mul {x : Gf} (h : x ≠ 0) : (⟨raid6Gfinv x.byte⟩ : Gf) * x = 1 := by
  obtain ⟨k, _, hk⟩ := exists_gen_pow h
  have hpow : (⟨raid6Gfinv x.byte⟩ : Gf) = 1 * x ^ 254 := gfpowLoop_eq 8 1#8 x.byte 254 (by omega)
  rw [hpow, one_mul, ← pow_succ, hk, ← pow_mul, Nat.mul_comm, pow_mul, gen_pow_255, one_pow]

end LinuxKernel.Raid6
