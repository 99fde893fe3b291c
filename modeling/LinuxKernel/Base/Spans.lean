/-
  Lists of half-open ranges `[lo x, hi x)` of natural numbers.

  1. **Covering** — `Covers lo hi l a`: some entry of the list contains `a`.  It is additive over `++`
     and `::`.

  2. **Order** — `Ordered`: every entry ends before the later ones begin, or where they begin;
     `Apart` excludes the latter.
-/
import Mathlib

namespace LinuxKernel.Spans

open List
variable {α : Type*} (lo hi : α → Nat)

/-- Some entry of the list contains `a`. -/
def Covers (l : List α) (a : Nat) : Prop := ∃ x ∈ l, lo x ≤ a ∧ a < hi x

/-- The entries are in ascending order and disjoint. -/
def Ordered (l : List α) : Prop := l.Pairwise fun x y => hi x ≤ lo y

/-- The entries are in ascending order, and no two of them touch. -/
def Apart (l : List α) : Prop := l.Pairwise fun x y => hi x < lo y

variable {lo hi} {l l' : List α} {x y : α} {a b : Nat}

@[simp] theorem covers_nil : Covers lo hi [] a ↔ False := ⟨fun ⟨_, h, _⟩ => (nomatch h), False.elim⟩

@[simp] theorem covers_cons : Covers lo hi (x :: l) a ↔ (lo x ≤ a ∧ a < hi x) ∨ Covers lo hi l a := by
  simp [Covers]

@[simp] theorem covers_append : Covers lo hi (l ++ l') a ↔ Covers lo hi l a ∨ Covers lo hi l' a := by
  simp [Covers, or_and_right, exists_or]

theorem ordered_append : Ordered lo hi (l ++ l') ↔
    Ordered lo hi l ∧ Ordered lo hi l' ∧ ∀ x ∈ l, ∀ y ∈ l', hi x ≤ lo y := pairwise_append

theorem apart_append : Apart lo hi (l ++ l') ↔
    Apart lo hi l ∧ Apart lo hi l' ∧ ∀ x ∈ l, ∀ y ∈ l', hi x < lo y := pairwise_append

theorem ordered_cons : Ordered lo hi (x :: l) ↔ (∀ y ∈ l, hi x ≤ lo y) ∧ Ordered lo hi l := pairwise_cons
theorem apart_cons : Apart lo hi (x :: l) ↔ (∀ y ∈ l, hi x < lo y) ∧ Apart lo hi l := pairwise_cons

end LinuxKernel.Spans
