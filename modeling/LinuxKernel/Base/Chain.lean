/-
  Singly linked lists.

  The links are a function `next : α → Option α`, with `none` for the null pointer.  `Leads next c l m`
  says that following the links from `c` passes exactly the nodes `l` and arrives at `m`; a null
  terminated list is `Leads next c l none`.
-/
import Mathlib

namespace LinuxKernel.Chain

open List
variable {α : Type*}

/-- From `c` the links pass the nodes `l` and arrive at `m`. -/
def Leads (next : α → Option α) : Option α → List α → Option α → Prop
  | c, [], m => c = m
  | c, p :: l, m => c = some p ∧ Leads next (next p) l m

variable {next next' : α → Option α}

@[simp] theorem leads_nil {c m : Option α} : Leads next c [] m ↔ c = m := Iff.rfl

@[simp] theorem leads_cons {c m : Option α} {p : α} {l : List α} :
    Leads next c (p :: l) m ↔ c = some p ∧ Leads next (next p) l m := Iff.rfl

theorem leads_append {m : Option α} {R L : List α} : ∀ {c : Option α},
    Leads next c (L ++ R) m ↔ ∃ k, Leads next c L k ∧ Leads next k R m := by
  induction L with
  | nil => intro c; simp
  | cons p L ih =>
    intro c
    simp only [cons_append, leads_cons, ih, and_assoc]
    constructor
    · rintro ⟨hc, k, h⟩
      exact ⟨k, hc, h⟩
    · rintro ⟨k, hc, h⟩
      exact ⟨hc, k, h⟩

/-- Only the links of the nodes that are passed matter. -/
theorem leads_congr {m : Option α} {l : List α} : ∀ {c : Option α},
    (∀ p ∈ l, next' p = next p) → Leads next c l m → Leads next' c l m := by
  induction l with
  | nil => intro c _ h; exact h
  | cons p l ih =>
    intro c hp h
    refine ⟨h.1, ?_⟩
    rw [hp p (mem_cons_self ..)]
    exact ih (fun q hq => hp q (mem_cons_of_mem p hq)) h.2

/-- A null terminated list is determined by its first link. -/
theorem leads_unique :
    ∀ {l l' : List α} {c : Option α}, Leads next c l none → Leads next c l' none → l = l' := by
  intro l
  induction l with
  | nil =>
    intro l' c h h'
    cases l' with
    | nil => rfl
    | cons p l' => exact absurd (h.symm.trans h'.1) (Option.some_ne_none p).symm
  | cons p l ih =>
    intro l' c h h'
    cases l' with
    | nil => exact absurd (h'.symm.trans h.1) (Option.some_ne_none p).symm
    | cons q l' =>
      obtain rfl : p = q := Option.some.inj (h.1.symm.trans h'.1)
      rw [ih h.2 h'.2]

/-- The first link of a null terminated list. -/
theorem leads_head {l : List α} {c : Option α} (h : Leads next c l none) : c = l.head? := by
  cases l with
  | nil => exact h
  | cons p l => exact h.1

end LinuxKernel.Chain
