/-
  Division by a constant in socket filters (`lib/reciprocal_div.c`, `BPF_S_ALU_DIV_K` of
  `net/core/filter.c`).

  1. **Program** — `sk_chk_filter` replaces the user's divisor `k` by `reciprocal_value(k)`, the
     quotient `⌈2³² / k⌉` cut to 32 bits, and `sk_run_filter` multiplies by it and keeps the high word.

  2. **Where it is exact** — the rounding adds `roundUp k = k·⌈2³²/k⌉ - 2³²` per unit of `A`, so the
     high word is `⌊A / k⌋` EXACTLY while `A · roundUp k` stays below the distance from `A` to the next
     multiple of `k`, scaled by `2³²` (`div_eq_iff_lt`).  A power of two has `roundUp k = 0`.

  3. **Where the cut bites** — `⌈2³² / 1⌉ = 2³²` is not a 32-bit value: dividing by `1` multiplies
     by `0`.
-/
import LinuxKernel.Net.SkFilterSound

namespace LinuxKernel.SkFilter

/-! ## The reciprocal -/

/-- What rounding `2³² / k` up adds: `k·⌈2³²/k⌉ - 2³²`, a number below `k`. -/
def roundUp (k : Nat) : Nat := (2 ^ 32 + (k - 1)) / k * k - 2 ^ 32

/-- The condition on divisor and accumulator under which the multiplication divides. -/
def DivExact (k a : UInt32) : Prop :=
  a = 0 ∨ k ≠ 1 ∧ a.toNat * roundUp k.toNat < (k.toNat - a.toNat % k.toNat) * 2 ^ 32

theorem ceil_mul {k : Nat} (hk : 0 < k) : (2 ^ 32 + (k - 1)) / k * k = 2 ^ 32 + roundUp k := by
  have hdiv := Nat.div_add_mod' (2 ^ 32 + (k - 1)) k
  have hmod := Nat.mod_lt (2 ^ 32 + (k - 1)) hk
  have hle : 2 ^ 32 ≤ (2 ^ 32 + (k - 1)) / k * k := by omega
  exact (Nat.add_sub_of_le hle).symm

/-- **High word of the product.**  Both sides of `A·⌈2³²/k⌉ < (⌊A/k⌋ + 1)·2³²` are compared after
    multiplying by `k`; the lower bound always holds because the reciprocal is rounded up. -/
theorem div_eq_iff_lt {k : Nat} (hk : 0 < k) (a : Nat) : a * ((2 ^ 32 + (k - 1)) / k) / 2 ^ 32 = a / k ↔
      a * roundUp k < (k - a % k) * 2 ^ 32 := by
  have hR := ceil_mul hk
  generalize (2 ^ 32 + (k - 1)) / k = R at hR ⊢
  have hprod : a * R * k = (k * (a / k) + a % k) * 2 ^ 32 + a * roundUp k := by
    rw [Nat.div_add_mod, Nat.mul_assoc, hR, Nat.mul_add]
  have hmod := Nat.mod_lt a hk
  have hlow : a / k * 2 ^ 32 ≤ a * R := by
    apply Nat.le_of_mul_le_mul_right _ hk
    rw [hprod, Nat.add_mul, show a / k * 2 ^ 32 * k = k * (a / k) * 2 ^ 32 from by ring]
    omega
  have hup : a * R < (a / k + 1) * 2 ^ 32 ↔ a * roundUp k < (k - a % k) * 2 ^ 32 := by
    rw [← Nat.mul_lt_mul_right hk, hprod, Nat.sub_mul,
      show (a / k + 1) * 2 ^ 32 * k = k * (a / k) * 2 ^ 32 + k * 2 ^ 32 from by ring]
    have : a % k * 2 ^ 32 ≤ k * 2 ^ 32 := Nat.mul_le_mul_right _ (Nat.le_of_lt hmod)
    omega
  rw [← hup]
  constructor
  · intro h
    rw [← h]
    exact (Nat.div_lt_iff_lt_mul (by decide)).mp (Nat.lt_succ_self _)
  · intro h
    exact Nat.div_eq_of_lt_le hlow h

/-- `reciprocal_value` keeps the whole quotient for every divisor except `1`. -/
theorem toNat_reciprocalValue {k : UInt32} (hk : 2 ≤ k.toNat) :
    (reciprocalValue k).toNat = (2 ^ 32 + (k.toNat - 1)) / k.toNat := by
  apply UInt32.toNat_ofNat_of_lt'
  rw [Nat.div_lt_iff_lt_mul (by omega)]
  simp only [UInt32.size]
  omega

/-- `reciprocal_divide` never overflows its result: the product of two words has two words. -/
theorem toNat_reciprocalDivide (a r : UInt32) :
    (reciprocalDivide a r).toNat = a.toNat * r.toNat / 2 ^ 32 := by
  apply UInt32.toNat_ofNat_of_lt'
  rw [Nat.div_lt_iff_lt_mul (by decide)]
  exact Nat.mul_lt_mul'' a.toNat_lt r.toNat_lt

/-- **Exactness of one division**, for every divisor but `0`. -/
theorem reciprocalDivide_eq_iff {k : UInt32} (hk : k ≠ 0) (a : UInt32) :
    reciprocalDivide a (reciprocalValue k) = a / k ↔ DivExact k a := by
  have hk0 : k.toNat ≠ 0 := fun h => hk (UInt32.toNat_inj.mp h)
  rw [← UInt32.toNat_inj, toNat_reciprocalDivide, UInt32.toNat_div]
  rcases eq_or_ne k 1 with rfl | h1
  · -- the reciprocal of `1` is cut to `0`
    rw [show (reciprocalValue 1).toNat = 0 from by decide, Nat.mul_zero, Nat.zero_div,
      show (1 : UInt32).toNat = 1 from rfl, Nat.div_one, DivExact]
    simp only [ne_eq, not_true_eq_false, false_and, or_false, ← UInt32.toNat_inj]
    exact eq_comm
  · have h2 : 2 ≤ k.toNat := by
      have : k.toNat ≠ 1 := fun h => h1 (UInt32.toNat_inj.mp h)
      omega
    rw [toNat_reciprocalValue h2, div_eq_iff_lt (by omega), DivExact]
    refine ⟨fun h => Or.inr ⟨h1, h⟩, ?_⟩
    rintro (rfl | ⟨_, h⟩)
    · simp only [show (0 : UInt32).toNat = 0 from rfl, Nat.zero_mul, Nat.zero_mod]
      omega
    · exact h

/-! ## The instruction -/

/-- **The first loop, index by index**: instruction `i` of the rewritten array comes from
    instruction `i` of the user's. -/
theorem chkInsns_getElem (flen : Nat) : ∀ (fs fs' : List SockFilter) (pc : Nat),
    chkInsns flen pc fs = some fs' → ∀ i f, fs[i]? = some f →
    ∃ f', chkInsn flen (pc + i) f = some f' ∧ fs'[i]? = some f' := by
  intro fs
  induction fs with
  | nil => intro fs' pc _ i f hf; cases hf
  | cons g fs ih =>
    intro fs' pc h i f hf
    rw [chkInsns] at h
    split at h
    · cases h
    · rename_i g' hg'
      obtain ⟨gs, hgs, rfl⟩ := Option.map_eq_some_iff.mp h
      cases i with
      | zero => injection hf with hf; subst hf; exact ⟨g', hg', rfl⟩
      | succ i =>
        rw [show pc + (i + 1) = pc + 1 + i from by omega]
        exact ih gs (pc + 1) hgs i f hf

/-- The verifier's `case BPF_S_ALU_DIV_K`: only `k == 0` is refused. -/
theorem chkInsn_aluDivK {flen pc : Nat} {f f' : SockFilter} (hc : codes f.code = some .aluDivK)
    (h : chkInsn flen pc f = some f') :
    f.k ≠ 0 ∧ f' = { f with code := BpfS.aluDivK.code, k := reciprocalValue f.k } := by
  rw [chkInsn, hc] at h
  simp only [Option.ite_none_left_eq_some, Option.some.injEq] at h
  exact ⟨h.1, h.2.symm⟩

/-- **Headline.**  In an accepted program the instruction that stands for the user's
    `BPF_ALU | BPF_DIV | BPF_K` by `k` leaves `reciprocal_divide(A, reciprocal_value(k))` in `A` and
    goes on; that value is `A / k` exactly when `DivExact k A`. -/
theorem exec_aluDivK_exact {alloc : Bool} {filter insns : List SockFilter}
    (h : skChkFilter alloc filter = .ok insns) {pc : Nat} {f : SockFilter}
    (hf : filter[pc]? = some f) (hc : codes f.code = some .aluDivK) :
    f.k ≠ 0 ∧ ∃ f', insns[pc]? = some f' ∧ ∀ (skb : SkBuff) (s : State), exec skb f' s =
        .ok { s with pc := s.pc + 1, a := reciprocalDivide s.a (reciprocalValue f.k) } ∧
      (reciprocalDivide s.a (reciprocalValue f.k) = s.a / f.k ↔ DivExact f.k s.a) := by
  obtain ⟨f', hchk, hf'⟩ := chkInsns_getElem _ _ _ _ (skChkFilter_inv h).2.1 pc f hf
  obtain ⟨hk, rfl⟩ := chkInsn_aluDivK hc hchk
  refine ⟨hk, _, hf', fun skb s => ⟨?_, reciprocalDivide_eq_iff hk s.a⟩⟩
  exact @exec_plain skb _ s .aluDivK (BpfS.ofCode_code _) rfl

/-- `exec_aluDivK_exact` at `div #4; ret a` with `A = 4294967295`. -/
theorem exec_aluDivK_exact_four :
    ∃ f', [⟨BpfS.aluDivK.code, 0, 0, 0x40000000⟩, ⟨BpfS.retA.code, 0, 0, 0⟩][0]? = some f' ∧
      ∀ skb, exec skb f' ⟨0, 4294967295, 0, fun _ => 0⟩ = .ok ⟨1, 4294967295 / 4, 0, fun _ => 0⟩ := by
  have hok : skChkFilter true [⟨0x34, 0, 0, 4⟩, ⟨0x16, 0, 0, 0⟩] =
      .ok [⟨BpfS.aluDivK.code, 0, 0, 0x40000000⟩, ⟨BpfS.retA.code, 0, 0, 0⟩] := by rfl
  obtain ⟨_, f', hf', hex⟩ := @exec_aluDivK_exact _ _ _ hok 0 ⟨0x34, 0, 0, 4⟩ rfl rfl
  refine ⟨f', hf', fun skb => ?_⟩
  obtain ⟨hrun, hiff⟩ := hex skb ⟨0, 4294967295, 0, fun _ => 0⟩
  rw [hrun, hiff.mpr (Or.inr (by decide))]

/-- **Division is not exact**: `div #1` turns `7` into `0`, and `div #3` is one too high at
    `4294967294`. -/
theorem exec_aluDivK_inexact :
    (∃ insns, skChkFilter true [⟨0x34, 0, 0, 1⟩, ⟨0x34, 0, 0, 3⟩, ⟨0x16, 0, 0, 0⟩] = .ok insns ∧
      (∃ f', insns[0]? = some f' ∧ ∀ skb mem, exec skb f' ⟨0, 7, 0, mem⟩ = .ok ⟨1, 0, 0, mem⟩) ∧
      ∃ f', insns[1]? = some f' ∧ ∀ skb mem, exec skb f' ⟨1, 4294967294, 0, mem⟩ = .ok ⟨2, 1431655765, 0,
        mem⟩) ∧
    (7 : UInt32) / 1 = 7 ∧ (4294967294 : UInt32) / 3 = 1431655764 := by
  refine ⟨⟨[⟨BpfS.aluDivK.code, 0, 0, reciprocalValue 1⟩, ⟨BpfS.aluDivK.code, 0, 0, reciprocalValue 3⟩,
    ⟨BpfS.retA.code, 0, 0, 0⟩], rfl, ⟨_, rfl, fun skb mem => ?_⟩, ⟨_, rfl, fun skb mem => ?_⟩⟩,
      by decide, by decide⟩
  · rw [@exec_plain skb _ ⟨0, 7, 0, mem⟩ .aluDivK (BpfS.ofCode_code .aluDivK) rfl, execReg,
      show reciprocalDivide 7 (reciprocalValue 1) = 0 from by decide]
    rfl
  · rw [@exec_plain skb _ ⟨1, 4294967294, 0, mem⟩ .aluDivK (BpfS.ofCode_code .aluDivK) rfl, execReg,
      show reciprocalDivide 4294967294 (reciprocalValue 3) = 1431655765 from by decide]
    rfl

end LinuxKernel.SkFilter
