/-
  Graphs that grow by one edge at a time.

  1. **Adding an edge** — a path in the graph with the new edge `a → b` is an old path, or passes through
     the new edge (`path_of_insert`).  So a graph without cycles stays so unless `b` already led back
     to `a` (`Acyclic.insert`).

  2. **One successor** — where every vertex has at most one successor, a path out of a vertex goes through
     that successor (`path_iff_of_next`).

  3. **Sinks** — edges into a vertex that has no successor close no cycle (`Acyclic.sinks`).

  4. **Rank** — on finitely many vertices, the number of vertices ahead of a vertex goes down along every
     edge of a graph without cycles (`Acyclic.rank_lt`).
-/
import Mathlib

namespace LinuxKernel.WaitGraph

open Relation
variable {α : Type*} {R R' : α → α → Prop}

/-- No path comes back to where it started. -/
def Acyclic (R : α → α → Prop) : Prop := ∀ x, ¬ TransGen R x x

theorem acyclic_empty (h : ∀ x y, ¬ R x y) : Acyclic R := by
  intro x hx
  obtain ⟨y, hxy, _⟩ := TransGen.head'_iff.mp hx
  exact h x y hxy

theorem Acyclic.mono (h : Acyclic R) (hsub : ∀ x y, R' x y → R x y) : Acyclic R' :=
  fun x hx => h x (TransGen.mono hsub x x hx)

theorem path_of_insert {a b : α} (hsub : ∀ x y, R' x y → R x y ∨ (x = a ∧ y = b)) {x y : α}
    (h : TransGen R' x y) :
    TransGen R x y ∨ (ReflTransGen R x a ∧ ReflTransGen R b y) := by
  induction h with
  | single hxy =>
    rcases hsub _ _ hxy with h | ⟨rfl, rfl⟩
    · exact .inl (.single h)
    · exact .inr ⟨.refl, .refl⟩
  | tail _ hyz ih =>
    rcases hsub _ _ hyz with h | ⟨rfl, rfl⟩
    · exact ih.imp (·.tail h) fun ⟨h1, h2⟩ => ⟨h1, h2.tail h⟩
    · exact .inr ⟨ih.elim (·.to_reflTransGen) (·.1), .refl⟩

/-- **Adding an edge** that does not close a cycle. -/
theorem Acyclic.insert (h : Acyclic R) {a b : α} (hsub : ∀ x y, R' x y → R x y ∨ (x = a ∧ y = b))
    (hback : ¬ ReflTransGen R b a) : Acyclic R' := by
  intro x hx
  rcases path_of_insert hsub hx with hx | ⟨h1, h2⟩
  · exact h x hx
  · exact hback (h2.trans h1)

/-- **New edges into sinks** close no cycle. -/
theorem Acyclic.sinks (h : Acyclic R) (hsub : ∀ x y z, R' x y → R' y z → R x y) : Acyclic R' := by
  have hpath : ∀ x y z, TransGen R' x y → R' y z → TransGen R x y := by
    intro x y z hxy
    induction hxy generalizing z with
    | single hxy => exact fun hyz => .single (hsub _ _ _ hxy hyz)
    | tail _ hby ih => exact fun hyz => (ih _ hby).tail (hsub _ _ _ hby hyz)
  intro x hx
  obtain ⟨y, hxy, _⟩ := TransGen.head'_iff.mp hx
  exact h x (hpath x x y hx hxy)

/-- The number of vertices ahead of `x`. -/
noncomputable def rank (R : α → α → Prop) (x : α) : Nat := {y | TransGen R x y}.ncard

/-- **Rank goes down** along every edge. -/
theorem Acyclic.rank_lt [Finite α] (h : Acyclic R) {x y : α} (hxy : R x y) : rank R y < rank R x := by
  refine Set.ncard_lt_ncard ⟨fun z hz => .head hxy hz, fun hsub => ?_⟩ (Set.toFinite _)
  exact h y (hsub (.single hxy : TransGen R x y))

theorem Acyclic.rank_lt_card [Finite α] (h : Acyclic R) (x : α) : rank R x < Nat.card α := by
  refine Set.ncard_lt_card fun huniv => h x ?_
  have hx : x ∈ {y | TransGen R x y} := huniv ▸ Set.mem_univ x
  exact hx

/-- The only edge out of `x` goes to `y`. -/
theorem path_iff_of_next {x y z : α} (hxy : R x y) (honly : ∀ y', R x y' → y' = y) :
    TransGen R x z ↔ z = y ∨ TransGen R y z := by
  rw [TransGen.head'_iff]
  constructor
  · rintro ⟨y', hy', hz⟩
    rw [honly y' hy', Relation.reflTransGen_iff_eq_or_transGen] at hz
    exact hz
  · rintro (rfl | hz)
    · exact ⟨z, hxy, .refl⟩
    · exact ⟨y, hxy, hz.to_reflTransGen⟩

end LinuxKernel.WaitGraph
