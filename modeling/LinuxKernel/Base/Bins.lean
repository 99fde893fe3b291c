/-
  Lists in bins: every object is in at most one of them.

  The lists are a function `vec` of a bin.  An object is put at the end of a bin (`add`) or at its front
  (`push`), taken out of the bin it is in (`remove`, as `list_del` does, which does not name the bin), or
  a whole bin is emptied (`take`).  `Exclusive vec` says that no object is in two bins, or twice in one.
-/
import Mathlib

namespace LinuxKernel.Bins

open Function
variable {β α : Type*} [DecidableEq β] {vec : β → List α} {s s' : β} {x t : α}

/-- No object is in two bins, or twice in one. -/
structure Exclusive (vec : β → List α) : Prop where
  nodup : ∀ s, (vec s).Nodup
  unique : ∀ s s' x, x ∈ vec s → x ∈ vec s' → s = s'

def add (vec : β → List α) (s : β) (t : α) : β → List α := update vec s (vec s ++ [t])

theorem mem_add : x ∈ add vec s t s' ↔ x ∈ vec s' ∨ (x = t ∧ s' = s) := by
  unfold add
  by_cases h : s' = s
  · subst h
    simp
  · simp [h]

/-- One more object in one bin. -/
theorem Exclusive.insert {vec' : β → List α} (h : Exclusive vec) (ht : ∀ s, t ∉ vec s) {s : β}
    (hs : (vec' s).Perm (t :: vec s)) (hne : ∀ s', s' ≠ s → vec' s' = vec s') : Exclusive vec' := by
  have hmem : ∀ s' x, x ∈ vec' s' → x ∈ vec s' ∨ (x = t ∧ s' = s) := by
    intro s' x hx
    by_cases e : s' = s
    · subst e
      rcases List.mem_cons.mp (hs.mem_iff.mp hx) with rfl | hx
      · exact .inr ⟨rfl, rfl⟩
      · exact .inl hx
    · exact .inl (hne s' e ▸ hx)
  refine ⟨fun s' => ?_, fun s1 s2 x h1 h2 => ?_⟩
  · by_cases e : s' = s
    · subst e
      exact hs.nodup_iff.mpr (List.nodup_cons.mpr ⟨ht s', h.nodup s'⟩)
    · rw [hne s' e]
      exact h.nodup s'
  · rcases hmem s1 x h1 with h1 | ⟨rfl, rfl⟩
    · rcases hmem s2 x h2 with h2 | ⟨rfl, rfl⟩
      · exact h.unique s1 s2 x h1 h2
      · exact absurd h1 (ht s1)
    · rcases hmem s2 x h2 with h2 | ⟨_, rfl⟩
      · exact absurd h2 (ht s2)
      · rfl

theorem Exclusive.add (h : Exclusive vec) (ht : ∀ s, t ∉ vec s) (s : β) : Exclusive (add vec s t) := by
  refine h.insert ht (s := s) ?_ fun s' hs' => update_of_ne hs' ..
  rw [Bins.add, update_self]
  exact List.perm_append_comm

theorem length_add : (add vec s t s').length = (vec s').length + if s' = s then 1 else 0 := by
  unfold add
  by_cases h : s' = s
  · subst h
    simp
  · simp [h]

def push (vec : β → List α) (s : β) (t : α) : β → List α := update vec s (t :: vec s)

theorem mem_push : x ∈ push vec s t s' ↔ x ∈ vec s' ∨ (x = t ∧ s' = s) := by
  unfold push
  by_cases h : s' = s
  · subst h
    simp [or_comm]
  · simp [h]

theorem Exclusive.push (h : Exclusive vec) (ht : ∀ s, t ∉ vec s) (s : β) : Exclusive (push vec s t) := by
  refine h.insert ht (s := s) ?_ fun s' hs' => update_of_ne hs' ..
  rw [Bins.push, update_self]

theorem length_push : (push vec s t s').length = (vec s').length + if s' = s then 1 else 0 := by
  unfold push
  by_cases h : s' = s
  · subst h
    simp
  · simp [h]

def take (vec : β → List α) (s : β) : β → List α := update vec s []

theorem mem_take : x ∈ take vec s s' ↔ x ∈ vec s' ∧ s' ≠ s := by
  unfold take
  by_cases h : s' = s
  · subst h
    simp
  · simp [h]

theorem Exclusive.take (h : Exclusive vec) (s : β) : Exclusive (take vec s) := by
  refine ⟨fun s' => ?_, fun s1 s2 x h1 h2 => ?_⟩
  · unfold Bins.take
    by_cases hs : s' = s
    · subst hs
      rw [update_self]
      exact List.nodup_nil
    · rw [update_of_ne hs]
      exact h.nodup s'
  · exact h.unique s1 s2 x (mem_take.mp h1).1 (mem_take.mp h2).1

/-- What is taken out of a bin is in no other. -/
theorem Exclusive.not_mem_take (h : Exclusive vec) (hx : x ∈ vec s) (s' : β) : x ∉ Bins.take vec s s' :=
  fun hx' => (mem_take.mp hx').2 (h.unique s' s x (mem_take.mp hx').1 hx)

section Remove
variable [DecidableEq α]

def remove (vec : β → List α) (t : α) : β → List α := fun s => (vec s).filter (· ≠ t)

omit [DecidableEq β] in
theorem mem_remove : x ∈ remove vec t s ↔ x ∈ vec s ∧ x ≠ t := by
  simp [remove]

omit [DecidableEq β] in
theorem Exclusive.remove (h : Exclusive vec) (t : α) : Exclusive (remove vec t) :=
  ⟨fun s => (h.nodup s).filter _, fun s1 s2 x h1 h2 =>
    h.unique s1 s2 x (mem_remove.mp h1).1 (mem_remove.mp h2).1⟩

/-- One object less in its bin. -/
theorem Exclusive.length_remove (h : Exclusive vec) (ht : t ∈ vec s) (s' : β) :
    (Bins.remove vec t s').length + (if s' = s then 1 else 0) = (vec s').length := by
  unfold Bins.remove
  by_cases e : s' = s
  · subst e
    have hf : (vec s').filter (· ≠ t) = (vec s').erase t := by
      rw [(h.nodup s').erase_eq_filter t]
      exact List.filter_congr fun x _ => by simp [bne, beq_eq_decide]
    have hpos := List.length_pos_of_mem ht
    rw [if_pos rfl, hf, List.length_erase_of_mem ht]
    omega
  · have hf : (vec s').filter (· ≠ t) = vec s' := List.filter_eq_self.mpr fun x hx =>
      decide_eq_true fun hxt => e (h.unique s' s x hx (hxt ▸ ht))
    rw [if_neg e, hf, Nat.add_zero]

end Remove
end LinuxKernel.Bins
