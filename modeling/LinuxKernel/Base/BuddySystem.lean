/-
  Buddy systems: maps of free blocks of sizes `2 ^ o`.

  1. **Blocks** — the block of order `o` at `p` are the numbers from `p` below `p + 2 ^ o`.  An aligned
     block and its buddy `p ^^^ 2 ^ o` are the two halves of the block of order `o + 1` at
     `p &&& (p ^^^ 2 ^ o)`.

  2. **Free maps** (`FreeMap`) carry their invariant: the blocks are aligned and DISJOINT, and no
     block is free together with its buddy, unless it has the largest order.

  3. **Operations** — `remove` takes a block out; `insert` adds one, and asks for a proof that its
     buddy is not free with the same order: merging is what makes this proof available.
-/
import Mathlib

namespace LinuxKernel.BuddySystem

open Function

/-! ## Buddies -/

/-- The other half of the block of the next order. -/
def buddyOf (o p : Nat) : Nat := p ^^^ 2 ^ o

/-- The start of the block of the next order. -/
def parentOf (o p : Nat) : Nat := buddyOf o p &&& p

/-- Bit `o` is changed, and nothing else. -/
theorem xor_two_pow (o : Nat) :
    ∀ p : Nat, (p.testBit o = false ∧ p ^^^ 2 ^ o = p + 2 ^ o ∧ (p ^^^ 2 ^ o) &&& p = p) ∨
      (p.testBit o = true ∧ (p ^^^ 2 ^ o) + 2 ^ o = p ∧ (p ^^^ 2 ^ o) &&& p = p ^^^ 2 ^ o) := by
  induction o with
  | zero =>
    intro p
    have h1 : (p ^^^ 1) / 2 = p / 2 := by rw [Nat.xor_div_two]; simp
    have h₂ : (p ^^^ 1) % 2 = (p + 1) % 2 := by rw [Nat.xor_mod_two_eq]
    have h3 : ((p ^^^ 1) &&& p) / 2 = p / 2 := by rw [Nat.and_div_two, h1, Nat.and_self]
    have h4 : ((p ^^^ 1) &&& p) % 2 = 0 := by
      have := Nat.and_mod_two_eq_one (a := p ^^^ 1) (b := p)
      omega
    rw [Nat.pow_zero, Nat.testBit_zero]
    by_cases hp : p % 2 = 1
    · exact .inr ⟨by simp [hp], by omega, by omega⟩
    · exact .inl ⟨by simp [hp], by omega, by omega⟩
  | succ o ih =>
    intro p
    have hpow : 2 ^ (o + 1) / 2 = 2 ^ o := by rw [Nat.pow_succ]; omega
    have h1 : (p ^^^ 2 ^ (o + 1)) / 2 = p / 2 ^^^ 2 ^ o := by rw [Nat.xor_div_two, hpow]
    have h₂ : (p ^^^ 2 ^ (o + 1)) % 2 = p % 2 := by rw [Nat.xor_mod_two_eq, Nat.pow_succ]; omega
    have h3 : ((p ^^^ 2 ^ (o + 1)) &&& p) / 2 = (p / 2 ^^^ 2 ^ o) &&& (p / 2) := by
      rw [Nat.and_div_two, h1]
    have h4 : ((p ^^^ 2 ^ (o + 1)) &&& p) % 2 = p % 2 := by
      have := Nat.and_mod_two_eq_one (a := p ^^^ 2 ^ (o + 1)) (b := p)
      omega
    rw [Nat.testBit_succ]
    rcases ih (p / 2) with ⟨hb, hx, ha⟩ | ⟨hb, hx, ha⟩
    · exact .inl ⟨hb, by omega, by omega⟩
    · exact .inr ⟨hb, by omega, by omega⟩

/-- An aligned block is the lower or the upper half of its parent. -/
theorem halves {o p : Nat} (h : 2 ^ o ∣ p) : (2 ^ (o + 1) ∣ p ∧ buddyOf o p = p + 2 ^ o ∧ parentOf o p = p) ∨
      (2 ^ (o + 1) ∣ buddyOf o p ∧ buddyOf o p + 2 ^ o = p ∧ parentOf o p = buddyOf o p) := by
  obtain ⟨k, rfl⟩ := h
  have hbit : (2 ^ o * k).testBit o = decide (k % 2 = 1) := by
    rw [Nat.testBit_two_pow_mul]; simp [Nat.testBit_zero]
  have hdvd : ∀ j, k = 2 * j → 2 ^ (o + 1) ∣ 2 ^ o * k := by
    rintro j rfl
    exact ⟨j, by rw [Nat.pow_succ, Nat.mul_assoc]⟩
  rcases xor_two_pow o (2 ^ o * k) with ⟨hb, hx, ha⟩ | ⟨hb, hx, ha⟩
  · rw [hbit, decide_eq_false_iff_not] at hb
    exact .inl ⟨hdvd (k / 2) (by omega), hx, ha⟩
  · rw [hbit, decide_eq_true_eq] at hb
    refine .inr ⟨⟨k / 2, ?_⟩, hx, ha⟩
    obtain ⟨j, rfl⟩ : ∃ j, k = 2 * j + 1 := ⟨k / 2, by omega⟩
    have hj : (2 * j + 1) / 2 = j := by omega
    rw [hj, Nat.pow_succ, Nat.mul_assoc]
    rw [Nat.mul_add, Nat.mul_one] at hx
    exact Nat.add_right_cancel hx

theorem two_pow_succ (o : Nat) : 2 ^ (o + 1) = 2 ^ o + 2 ^ o := by
  rw [Nat.pow_succ, Nat.mul_two]

theorem dvd_parentOf {o p : Nat} (h : 2 ^ o ∣ p) : 2 ^ (o + 1) ∣ parentOf o p := by
  rcases halves h with ⟨h1, _, h₂⟩ | ⟨h1, _, h₂⟩
  · rw [h₂]; exact h1
  · rw [h₂]; exact h1

theorem buddyOf_buddyOf (o p : Nat) : buddyOf o (buddyOf o p) = p := by
  rw [buddyOf, buddyOf, Nat.xor_assoc, Nat.xor_self, Nat.xor_zero]

theorem buddyOf_ne (o p : Nat) : buddyOf o p ≠ p := by
  have := Nat.two_pow_pos o
  rcases xor_two_pow o p with ⟨_, hx, _⟩ | ⟨_, hx, _⟩
  · rw [buddyOf]; omega
  · rw [buddyOf]; omega

/-- The buddy of an upper half is the lower half. -/
theorem buddyOf_upper {o p : Nat} (h : 2 ^ (o + 1) ∣ p) : buddyOf o (p + 2 ^ o) = p := by
  have hup : buddyOf o p = p + 2 ^ o := by
    rcases halves (Nat.dvd_trans (Nat.pow_dvd_pow 2 (Nat.le_succ o)) h) with ⟨_, h1, _⟩ | ⟨h1, h₂, _⟩
    · exact h1
    · rw [← h₂] at h
      have := (Nat.dvd_add_right h1).mp h
      have := Nat.le_of_dvd (Nat.two_pow_pos o) this
      have := Nat.two_pow_pos o
      rw [two_pow_succ] at *
      omega
  rw [← hup, buddyOf_buddyOf]

/-! ## Blocks -/

/-- The numbers in the block of order `o` at `p`. -/
def block (p o : Nat) : Set Nat := {n | p ≤ n ∧ n < p + 2 ^ o}
theorem mem_block_self (p o : Nat) : p ∈ block p o :=
    ⟨Nat.le_refl p, Nat.lt_add_of_pos_right (Nat.two_pow_pos o)⟩

/-- The two halves of a block. -/
theorem block_succ (p o : Nat) : block p (o + 1) = block p o ∪ block (p + 2 ^ o) o := by
  ext n
  simp only [block, Set.mem_union, Set.mem_ofPred_eq, two_pow_succ]
  omega

theorem disjoint_halves (p o : Nat) : Disjoint (block p o) (block (p + 2 ^ o) o) := by
  rw [Set.disjoint_left]
  rintro n ⟨_, h1⟩ ⟨h₂, _⟩
  omega

theorem block_parentOf {o p : Nat} (h : 2 ^ o ∣ p) :
    block (parentOf o p) (o + 1) = block p o ∪ block (buddyOf o p) o := by
  rcases halves h with ⟨_, h1, h₂⟩ | ⟨_, h1, h₂⟩
  · rw [h₂, block_succ, h1]
  · rw [h₂, block_succ, h1, Set.union_comm]

/-! ## Free maps -/

/-- The free blocks: `order p` is the order of the free block that starts at `p`. -/
structure FreeMap (m : Nat) where
  order : Nat → Option Nat
  order_lt : ∀ p o, order p = some o → o < m
  aligned : ∀ p o, order p = some o → 2 ^ o ∣ p
  disjoint : ∀ p o q o', order p = some o → order q = some o' → p ≠ q → Disjoint (block p o) (block q o')
  merged : ∀ p o, order p = some o → o + 1 < m → order (buddyOf o p) ≠ some o

namespace FreeMap

variable {m : Nat} (A : FreeMap m) {p o : Nat}

/-- Everything that is free. -/
def pages : Set Nat := {n | ∃ p o, A.order p = some o ∧ n ∈ block p o}
theorem block_subset (h : A.order p = some o) : block p o ⊆ A.pages := fun _ hn => ⟨p, o, h, hn⟩

theorem order_eq_none (h : Disjoint (block p o) A.pages) : A.order p = none := by
  rw [Option.eq_none_iff_forall_ne_some]
  intro o' ho'
  exact Set.disjoint_left.mp h (mem_block_self p o) (A.block_subset ho' (mem_block_self p o'))

theorem of_update_none {f : Nat → Option Nat} {q : Nat} (h : update f p none q = some o) :
    q ≠ p ∧ f q = some o := by
  by_cases hq : q = p
  · rw [hq, update_self] at h
    nomatch h
  · exact ⟨hq, by rwa [update_of_ne hq] at h⟩

/-- A block is not free any more. -/
def remove (p : Nat) : FreeMap m where
  order := update A.order p none
  order_lt q o h := A.order_lt q o (of_update_none h).2
  aligned q o h := A.aligned q o (of_update_none h).2
  disjoint q o r o' hq hr := A.disjoint q o r o' (of_update_none hq).2 (of_update_none hr).2
  merged q o h hlt h' := A.merged q o (of_update_none h).2 hlt (of_update_none h').2

theorem pages_remove (h : A.order p = some o) : (A.remove p).pages = A.pages \ block p o := by
  ext n
  constructor
  · rintro ⟨q, o', hq, hn⟩
    obtain ⟨hne, hq⟩ := of_update_none hq
    exact ⟨⟨q, o', hq, hn⟩, Set.disjoint_left.mp (A.disjoint q o' p o hq h hne) hn⟩
  · rintro ⟨⟨q, o', hq, hn⟩, hnp⟩
    have hne : q ≠ p := by
      rintro rfl
      obtain rfl : o = o' := Option.some.inj (h.symm.trans hq)
      exact hnp hn
    exact ⟨q, o', (update_of_ne hne ..).trans hq, hn⟩

theorem of_update_some {f : Nat → Option Nat} {q o' : Nat}
    (h : update f p (some o) q = some o') : (q = p ∧ o' = o) ∨ (q ≠ p ∧ f q = some o') := by
  by_cases hq : q = p
  · rw [hq, update_self] at h
    exact .inl ⟨hq, (Option.some.inj h).symm⟩
  · exact .inr ⟨hq, by rwa [update_of_ne hq] at h⟩

/-- One more free block, whose buddy is not free with the same order. -/
def insert (p o : Nat) (hlt : o < m) (hal : 2 ^ o ∣ p) (hdis : Disjoint (block p o) A.pages)
    (hbuddy : o + 1 < m → A.order (buddyOf o p) ≠ some o) : FreeMap m where
  order := update A.order p (some o)
  order_lt q o' h := by
    rcases of_update_some h with ⟨rfl, rfl⟩ | ⟨_, h⟩
    · exact hlt
    · exact A.order_lt q o' h
  aligned q o' h := by
    rcases of_update_some h with ⟨rfl, rfl⟩ | ⟨_, h⟩
    · exact hal
    · exact A.aligned q o' h
  disjoint q o₁ r o₂ hq hr hne := by
    rcases of_update_some hq with ⟨rfl, rfl⟩ | ⟨_, hq'⟩
    · rcases of_update_some hr with ⟨rfl, rfl⟩ | ⟨_, hr'⟩
      · exact absurd rfl hne
      · exact Set.disjoint_of_subset_right (A.block_subset hr') hdis
    · rcases of_update_some hr with ⟨rfl, rfl⟩ | ⟨_, hr'⟩
      · exact (Set.disjoint_of_subset_right (A.block_subset hq') hdis).symm
      · exact A.disjoint q o₁ r o₂ hq' hr' hne
  merged q o' hq hlt' hb := by
    rcases of_update_some hq with ⟨rfl, rfl⟩ | ⟨_, hq'⟩
    · rcases of_update_some hb with ⟨hb, _⟩ | ⟨_, hb'⟩
      · exact buddyOf_ne _ _ hb
      · exact hbuddy hlt' hb'
    · rcases of_update_some hb with ⟨rfl, rfl⟩ | ⟨_, hb'⟩
      · exact hbuddy hlt' (by rwa [buddyOf_buddyOf])
      · exact A.merged q o' hq' hlt' hb'

theorem pages_insert (hlt : o < m) (hal : 2 ^ o ∣ p) (hdis : Disjoint (block p o) A.pages)
    (hbuddy : o + 1 < m → A.order (buddyOf o p) ≠ some o) :
    (A.insert p o hlt hal hdis hbuddy).pages = A.pages ∪ block p o := by
  ext n
  constructor
  · rintro ⟨q, o', hq, hn⟩
    rcases of_update_some hq with ⟨rfl, rfl⟩ | ⟨_, hq⟩
    · exact .inr hn
    · exact .inl ⟨q, o', hq, hn⟩
  · rintro (⟨q, o', hq, hn⟩ | hn)
    · have hne : q ≠ p := by
        rintro rfl
        rw [A.order_eq_none hdis] at hq
        nomatch hq
      exact ⟨q, o', (update_of_ne hne ..).trans hq, hn⟩
    · exact ⟨p, o, update_self .., hn⟩

end FreeMap
end LinuxKernel.BuddySystem
