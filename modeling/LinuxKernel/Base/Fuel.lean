/-
  Loops with a turn counter.

  A loop of the source becomes a function `f : Nat → Option α` of the number of turns it may take:
  `none` is "not finished yet".  `Returns f r` says that the loop FINISHES, with result `r`: every large
  enough number of turns gives `r`.
-/
import Mathlib

namespace LinuxKernel.Fuel

variable {α β : Type*}

/-- The loop finishes with `r`. -/
def Returns (f : Nat → Option α) (r : α) : Prop := ∃ n, ∀ fuel, n ≤ fuel → f fuel = some r

variable {f : Nat → Option α} {r : α}

/-- A loop has one result. -/
theorem Returns.unique {r' : α} (h : Returns f r) (h' : Returns f r') : r = r' := by
  obtain ⟨n, hn⟩ := h
  obtain ⟨m, hm⟩ := h'
  have := (hn (max n m) (Nat.le_max_left n m)).symm.trans (hm (max n m) (Nat.le_max_right n m))
  exact Option.some.inj this

theorem returns_const (h : ∀ n, f n = some r) : Returns f r := ⟨0, fun n _ => h n⟩

/-- What never gives a result does not finish. -/
theorem not_returns (h : ∀ n, f n = none) : ¬ Returns f r :=
  fun ⟨n, hn⟩ => Option.some_ne_none r ((hn n (Nat.le_refl n)).symm.trans (h n))

/-- One turn, and then the rest. -/
theorem Returns.turn {g : Nat → Option α} (h : Returns f r) (hg : ∀ n, g (n + 1) = f n) : Returns g r := by
  obtain ⟨n, hn⟩ := h
  refine ⟨n + 1, fun fuel hf => ?_⟩
  obtain ⟨m, rfl⟩ : ∃ m, fuel = m + 1 := ⟨fuel - 1, by omega⟩
  rw [hg]
  exact hn m (by omega)

/-- A turn that ends the loop. -/
theorem returns_turn {g : Nat → Option α} (hg : ∀ n, g (n + 1) = some r) : Returns g r :=
  (returns_const fun _ => rfl).turn (f := fun _ => some r) hg

variable {a : α}

/-- A loop, and then what depends on its result. -/
theorem Returns.before {g F : Nat → Option β} {r : β}
    (hf : Returns f a) (hg : Returns g r) (hF : ∀ n, f n = some a → F n = g n) : Returns F r := by
  obtain ⟨n, hn⟩ := hf
  obtain ⟨m, hm⟩ := hg
  refine ⟨max n m, fun fuel h => ?_⟩
  rw [hF fuel (hn fuel (by omega))]
  exact hm fuel (by omega)

/-- The same, inside one turn of an outer loop. -/
theorem Returns.within {g F : Nat → Option β} {r : β}
    (hf : Returns f a) (hg : Returns g r) (hF : ∀ n, f n = some a → F (n + 1) = g n) : Returns F r :=
  (hf.before hg (F := fun n => F (n + 1)) hF).turn fun _ => rfl

/-- A loop whose result ends the turn. -/
theorem Returns.ends {F : Nat → Option β} {r : β} (hf : Returns f a)
    (hF : ∀ n, f n = some a → F (n + 1) = some r) :
    Returns F r :=
  hf.within (returns_const fun _ => rfl) hF

/-- A loop, and then a function of its result. -/
theorem Returns.map (hf : Returns f a) (φ : α → β) :
    Returns (fun n => (f n).bind fun x => some (φ x)) (φ a) :=
  hf.before (returns_const fun _ => rfl) fun n hn => by rw [hn]; rfl

end LinuxKernel.Fuel
