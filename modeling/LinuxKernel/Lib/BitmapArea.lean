/-
  `bitmap_find_next_zero_area` — an aligned run of clear bits.

  1. **Program** — each turn goes to the next clear bit, aligns it upwards and looks for a set bit in the
     `nr` bits from there; a set bit sends it back with a start just behind that bit.

  2. **Specification** — `ZeroArea map size nr k i`: `nr` clear bits at the multiple `i` of `2 ^ k`,
     within `size`.

  3. **Correctness** (`findNextZeroArea_least`) — everything the search SKIPS begins at or before a set
     bit that the area would have to hold.  The start grows in every turn, so that the loop ends, with
     the LEAST area or with a value above `size`.
-/
import LinuxKernel.Base.Bitmap
import LinuxKernel.Base.Fuel

namespace LinuxKernel.Bitmap

open Fuel (Returns)

/-! ## The program -/

/-- `__ALIGN_MASK`, in words of `w` bits -/
def alignUp (w x mask : Nat) : Nat := (x + mask) % 2 ^ w &&& (2 ^ w - 1 - mask)

/-- The `again` loop, from `start`. -/
def bitmapFindNextZeroArea (w : Nat) (map : Bits) (size nr alignMask : Nat) : Nat → Nat → Option Nat
  | 0, _ => none
  | turns + 1, start =>
    let index := alignUp w (findNext (fun i => !map i) size start) alignMask
    let stop := (index + nr) % 2 ^ w
    if size < stop then some stop
    else
      let i := findNext map stop index
      if i < stop then bitmapFindNextZeroArea w map size nr alignMask turns ((i + 1) % 2 ^ w) else some index

/-! ## The least area -/

/-- `nr` clear bits of the first `size`, from the multiple `i` of `2 ^ k` on. -/
structure ZeroArea (map : Bits) (size nr k i : Nat) : Prop where
  aligned : 2 ^ k ∣ i
  within : i + nr ≤ size
  clear : ∀ j, i ≤ j → j < i + nr → map j = false

variable {w k size nr start : Nat} {map : Bits}

/-- The LEAST multiple that is not below `x`. -/
theorem alignUp_spec {x : Nat} (hw : x + (2 ^ k - 1) < 2 ^ w) :
    2 ^ k ∣ alignUp w x (2 ^ k - 1) ∧ x ≤ alignUp w x (2 ^ k - 1) ∧
    alignUp w x (2 ^ k - 1) ≤ x + (2 ^ k - 1) ∧
      ∀ b, 2 ^ k ∣ b → x ≤ b → alignUp w x (2 ^ k - 1) ≤ b := by
  have hpos : 0 < 2 ^ k := Nat.two_pow_pos k
  have hk : k ≤ w := (Nat.pow_le_pow_iff_right (by omega)).mp (by omega : 2 ^ k ≤ 2 ^ w)
  have e : alignUp w x (2 ^ k - 1) = (x + (2 ^ k - 1)) / 2 ^ k * 2 ^ k := by
    unfold alignUp
    rw [Nat.mod_eq_of_lt hw, show 2 ^ w - 1 - (2 ^ k - 1) = 2 ^ w - 2 ^ k by omega,
      and_two_pow_sub_two_pow hk hw]
  have h1 := Nat.div_add_mod (x + (2 ^ k - 1)) (2 ^ k)
  rw [Nat.mul_comm, ← e] at h1
  refine ⟨e ▸ Nat.dvd_mul_left _ _, by omega, by omega, fun b hb hle => ?_⟩
  obtain ⟨c, rfl⟩ := hb
  rw [e, Nat.mul_comm (2 ^ k) c]
  apply Nat.mul_le_mul_right
  apply Nat.le_of_lt_succ
  apply Nat.div_lt_of_lt_mul
  rw [Nat.mul_succ]
  omega

/-- An area begins at a clear bit, so that it begins at or behind the aligned candidate. -/
theorem ZeroArea.ge_candidate {i : Nat} (h : ZeroArea map size nr k i) (hnr : 1 ≤ nr) (hi : start ≤ i)
    (hw : size + nr + (2 ^ k - 1) < 2 ^ w) :
    alignUp w (findNext (fun i => !map i) size start) (2 ^ k - 1) ≤ i := by
  have hsize := h.within
  obtain ⟨-, hle, hset, -⟩ := findNext_spec (fun i => !map i) (by omega : start ≤ size)
  apply (alignUp_spec (by omega)).2.2.2 i h.aligned
  apply Nat.le_of_not_lt
  intro hlt
  have := hset i hi hlt
  rw [h.clear i (Nat.le_refl i) (by omega)] at this
  exact Bool.noConfusion this

/-- **The search is minimal.**  It ends, with the least area at or behind `start` if there is one, and
    with a value above `size` if there is none. -/
theorem findNextZeroArea_least (hs : start ≤ size) (hnr : 1 ≤ nr) (hw : size + nr + (2 ^ k - 1) < 2 ^ w) :
    ∃ r, Returns (fun turns => bitmapFindNextZeroArea w map size nr (2 ^ k - 1) turns start) r ∧
      (IsLeast {i | start ≤ i ∧ ZeroArea map size nr k i} r ∨
        (∀ i, start ≤ i → ¬ ZeroArea map size nr k i) ∧ size < r) := by
  -- on the number of bits that are left
  induction hn : size - start using Nat.strong_induction_on generalizing start with
  | _ n ih =>
    obtain ⟨h1, h2, -, -⟩ := findNext_spec (fun i => !map i) hs
    have hcand := fun i (h : ZeroArea map size nr k i) (hi : start ≤ i) => h.ge_candidate hnr hi hw
    obtain ⟨hal, hge, hup, -⟩ :=
      alignUp_spec (k := k) (w := w) (x := findNext (fun i => !map i) size start) (by omega)
    generalize hindex : alignUp w (findNext (fun i => !map i) size start) (2 ^ k - 1) = index at *
    have hstop : (index + nr) % 2 ^ w = index + nr := Nat.mod_eq_of_lt (by omega)
    by_cases hfit : size < index + nr
    · refine ⟨index + nr, Fuel.returns_turn fun n => ?_, .inr ⟨fun i hi h => ?_, hfit⟩⟩
      · rw [bitmapFindNextZeroArea, hindex]
        simp only [hstop, if_pos hfit]
      · have := hcand i h hi
        have := h.within
        omega
    obtain ⟨h3, h4, hclear, hset⟩ := findNext_spec map (by omega : index ≤ index + nr)
    generalize hi : findNext map (index + nr) index = i at *
    by_cases hblock : i < index + nr
    · -- bit `i` is in every area that begins from `index` to `i`
      have hbehind : ∀ j, start ≤ j → ZeroArea map size nr k j → i + 1 ≤ j := by
        intro j hj h
        have := hcand j h hj
        apply Nat.lt_of_not_le
        intro hle
        have := h.clear i hle (by omega)
        rw [hset hblock] at this
        exact Bool.noConfusion this
      obtain ⟨r, hr, hleast⟩ := ih (size - (i + 1)) (by omega) (by omega : i + 1 ≤ size) rfl
      refine ⟨r, hr.turn fun n => ?_, hleast.imp (fun h => ?_) fun h => ?_⟩
      · rw [bitmapFindNextZeroArea, hindex]
        simp only [hstop, if_neg hfit, hi, if_pos hblock, Nat.mod_eq_of_lt (by omega : i + 1 < 2 ^ w)]
      · exact ⟨⟨by have := h.1.1; omega, h.1.2⟩, fun j hj => h.2 ⟨hbehind j hj.1 hj.2, hj.2⟩⟩
      · exact ⟨fun j hj ha => h.1 j (hbehind j hj ha) ha, h.2⟩
    · refine ⟨index, Fuel.returns_turn fun n => ?_,
        .inl ⟨⟨by omega, hal, by omega, ?_⟩, fun j hj => hcand j hj.2 hj.1⟩⟩
      · rw [bitmapFindNextZeroArea, hindex]
        simp only [hstop, if_neg hfit, hi, if_neg hblock]
      · intro j hj hlt
        exact hclear j hj (by omega)

/-- Bits 1 and 6 are set: three clear bits at a multiple of four are at 8, although 2 to 5 are clear. -/
theorem findNextZeroArea_least_eight : (0 ≤ 16 ∧ 1 ≤ 3 ∧ 16 + 3 + (2 ^ 2 - 1) < 2 ^ 32) ∧
      ∃ r, Returns (fun turns =>
        bitmapFindNextZeroArea 32 (fun i => i == 1 || i == 6) 16 3 (2 ^ 2 - 1) turns 0) r ∧
        (IsLeast {i | 0 ≤ i ∧ ZeroArea (fun i => i == 1 || i == 6) 16 3 2 i} r ∨
          (∀ i, 0 ≤ i → ¬ ZeroArea (fun i => i == 1 || i == 6) 16 3 2 i) ∧ 16 < r) :=
  ⟨by decide, findNextZeroArea_least (by decide) (by decide) (by decide)⟩

end LinuxKernel.Bitmap
