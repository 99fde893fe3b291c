/-
  Runs of a step relation, and the invariant rule.

  A run is Mathlib's `Relation.ReflTransGen`: finitely many steps, each allowed by the relation.

  1. **The invariant rule** (`invariant_of_step`) is the only way the rest of the development reasons
     about all runs: what holds initially and survives every step holds in every state a run reaches.

  2. **Machines** — a machine given by a partial function `next` of its events steps by `Via next`, and
     `exec next` runs it on a list of events, so that a concrete run can be EVALUATED
     (`reachable_of_exec`).
-/
import Mathlib

namespace LinuxKernel.Run

variable {σ : Type*}

/-- The states that a run of `step` can reach from a state satisfying `init`. -/
def Reachable (init : σ → Prop) (step : σ → σ → Prop) (s : σ) : Prop :=
  ∃ s₀, init s₀ ∧ Relation.ReflTransGen step s₀ s

/-- **The invariant rule.** -/
theorem invariant_of_step {init : σ → Prop} {step : σ → σ → Prop} {Inv : σ → Prop}
    (h0 : ∀ s, init s → Inv s) (hstep : ∀ s s', Inv s → step s s' → Inv s') {s : σ}
    (h : Reachable init step s) : Inv s := by
  obtain ⟨s0, hi, hrun⟩ := h
  induction hrun with
  | refl => exact h0 s0 hi
  | tail _ hs ih => exact hstep _ _ ih hs

theorem Reachable.tail {init : σ → Prop} {step : σ → σ → Prop} {s s' : σ}
    (h : Reachable init step s) (hs : step s s') : Reachable init step s' := by
  obtain ⟨s0, hi, hrun⟩ := h
  exact ⟨s0, hi, hrun.tail hs⟩

/-! ## Machines given by a partial function -/

variable {ε : Type*}

/-- One step of the machine `next`: some event is allowed and does this. -/
def Via (next : σ → ε → Option σ) (s s' : σ) : Prop := ∃ e, next s e = some s'

/-- Run the machine on a list of events. -/
def exec (next : σ → ε → Option σ) : σ → List ε → Option σ
  | s, [] => some s
  | s, e :: es => (next s e).bind fun s' => exec next s' es

theorem exec_reaches {next : σ → ε → Option σ} (es : List ε) : ∀ (s s' : σ),
    exec next s es = some s' → Relation.ReflTransGen (Via next) s s' := by
  induction es with
  | nil => intro s s' h; injection h with h; exact h ▸ Relation.ReflTransGen.refl
  | cons e es ih =>
    intro s s' h
    obtain ⟨s1, h1, h2⟩ := Option.bind_eq_some_iff.mp h
    exact (ih s1 s' h2).head ⟨e, h1⟩

/-- A concrete run, observed through `f` at its end. -/
theorem reachable_of_exec {next : σ → ε → Option σ} {s0 : σ} {es : List ε} {α : Type*} {f : σ → α}
    {x : α} (h : (exec next s0 es).map f = some x) :
    ∃ s, Reachable (fun s => s = s0) (Via next) s ∧ f s = x := by
  obtain ⟨s, hs, hf⟩ := Option.map_eq_some_iff.mp h
  exact ⟨s, ⟨s0, rfl, exec_reaches es s0 s hs⟩, hf⟩

end LinuxKernel.Run
