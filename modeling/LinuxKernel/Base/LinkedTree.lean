/-
  Binary trees of linked nodes.

  1. **Shapes** — a tree is a map `T` from PATHS to nodes.  A path lists the turns from the root, the last one
     first, so the children of `π` are `false :: π` and `true :: π`, and its parent is the tail.

  2. **Links** — `Holds v T` says that the child and parent links `v` of the nodes of `T` are those of the
     tree.  Only the links of nodes of the tree matter (`Holds.congr`).

  3. **Operations** — a node takes the place of another one (`replace`), a leaf is removed (`cut`), a whole
     tree is hung below a node (`join`; a leaf is the tree `single`, see `plug_single`).  Each is stated for
     ANY new links that differ from the old ones in the right places, so that it does not matter in which
     order they were written.
-/
import Mathlib

namespace LinuxKernel.LinkedTree

open Function List Option
variable {P : Type*}

/-- A path, the last turn first. -/
abbrev Path := List Bool

/-- Which node is where. -/
abbrev Shape (P : Type*) := Path → Option P

/-- The links of the nodes. -/
structure View (P : Type*) where
  child : P → Bool → Option P
  parent : P → Option P

/-- The node above. -/
def up (T : Shape P) : Path → Option P
  | [] => none
  | _ :: π => T π

/-- The node is in the tree. -/
def Mem (T : Shape P) (p : P) : Prop := ∃ π, T π = some p

/-- The links are those of the tree. -/
structure Holds (v : View P) (T : Shape P) : Prop where
  child : ∀ π p b, T π = some p → v.child p b = T (b :: π)
  parent : ∀ π p, T π = some p → v.parent p = up T π
  inj : ∀ π ρ p, T π = some p → T ρ = some p → π = ρ
  closed : ∀ b π q, T (b :: π) = some q → ∃ p, T π = some p

variable {v v' : View P} {T U : Shape P} {π ρ : Path} {p q old node : P} {b : Bool}

theorem Holds.congr (h : Holds v T) (hc : ∀ p, Mem T p → v'.child p = v.child p)
    (hp : ∀ p, Mem T p → v'.parent p = v.parent p) : Holds v' T := by
  refine ⟨fun π p b hπ => ?_, fun π p hπ => ?_, h.inj, h.closed⟩
  · rw [hc p ⟨π, hπ⟩]
    exact h.child π p b hπ
  · rw [hp p ⟨π, hπ⟩]
    exact h.parent π p hπ

/-- Nothing is below a path where there is no node. -/
theorem Holds.none_below (h : Holds v T) (hπ : T π = none) (b : Bool) : T (b :: π) = none := by
  cases hb : T (b :: π) with
  | none => rfl
  | some q =>
    obtain ⟨p, hp⟩ := h.closed b π q hb
    rw [hπ] at hp
    nomatch hp

theorem Holds.none_append (h : Holds v T) (hπ : T π = none) (σ : Path) : T (σ ++ π) = none := by
  induction σ with
  | nil => exact hπ
  | cons c σ ih => exact h.none_below ih c

/-- A tree without a root is empty. -/
theorem Holds.eq_empty (h : Holds v T) (htop : T [] = none) : T = fun _ => none := by
  funext π
  rw [← append_nil π]
  exact h.none_append htop π

/-- The empty tree. -/
theorem holds_empty (v : View P) : Holds v fun _ => none := ⟨nofun, nofun, nofun, nofun⟩

/-- A single node. -/
def single (p : P) : Shape P
  | [] => some p
  | _ :: _ => none

theorem single_eq_some : single p π = some q ↔ π = [] ∧ q = p := by
  cases π with
  | nil => exact ⟨fun h => ⟨rfl, (Option.some.inj h).symm⟩, fun h => congrArg some h.2.symm⟩
  | cons b π => exact ⟨nofun, fun h => (nomatch h.1)⟩

theorem holds_single (hc : ∀ b, v.child p b = none) (hp : v.parent p = none) : Holds v (single p) := by
  refine ⟨fun π q b hπ => ?_, fun π q hπ => ?_, fun π ρ q hπ hρ => ?_, nofun⟩
  · obtain ⟨rfl, rfl⟩ := single_eq_some.mp hπ
    exact hc b
  · obtain ⟨rfl, rfl⟩ := single_eq_some.mp hπ
    exact hp
  · rw [(single_eq_some.mp hπ).1, (single_eq_some.mp hρ).1]

theorem cons_ne_self (b : Bool) (π : Path) : b :: π ≠ π := fun h => by
  have := congrArg List.length h
  rw [length_cons] at this
  omega

/-! ## Operations -/

section Update
variable [DecidableEq P]

/-- `node` in place of `old`. -/
def rename (old node x : P) : P := if x = old then node else x

theorem map_rename (h : ∀ x, T ρ = some x → x ≠ old) : (T ρ).map (rename old node) = T ρ := by
  cases hρ : T ρ with
  | none => rfl
  | some x => rw [map_some, rename, if_neg (h x hρ)]

/-- **A node takes the place of another one.** -/
theorem Holds.replace (h : Holds v T) (hπ : T π = some old) (hn : ¬ Mem T node)
    (hcn : ∀ b, v'.child node b = v.child old b) (hpn : v'.parent node = v.parent old)
    (hc : ∀ p b, Mem T p → p ≠ old → v'.child p b = (v.child p b).map (rename old node))
    (hp : ∀ p, Mem T p → p ≠ old → v'.parent p = (v.parent p).map (rename old node)) :
    Holds v' (update T π (some node)) := by
  -- a place that is not that of `old` holds another node, after the renaming the same one
  have hT : ∀ ρ, ρ ≠ π → (T ρ).map (rename old node) = update T π (some node) ρ := by
    intro ρ hρ
    rw [update_of_ne hρ]
    exact map_rename fun x hx hxo => hρ (h.inj ρ π old (hxo ▸ hx) hπ)
  have hTπ : (T π).map (rename old node) = update T π (some node) π := by
    rw [hπ, map_some, rename, if_pos rfl, update_self]
  have hmap : ∀ ρ, (T ρ).map (rename old node) = update T π (some node) ρ := by
    intro ρ
    by_cases hρ : ρ = π
    · rw [hρ]; exact hTπ
    · exact hT ρ hρ
  have hcases : ∀ ρ p, update T π (some node) ρ = some p →
    (ρ = π ∧ p = node) ∨ (ρ ≠ π ∧ T ρ = some p ∧ p ≠ old) := by
    intro ρ p hp
    by_cases hρ : ρ = π
    · rw [hρ, update_self] at hp
      exact .inl ⟨hρ, (Option.some.inj hp).symm⟩
    · rw [update_of_ne hρ] at hp
      exact .inr ⟨hρ, hp, fun e => hρ (h.inj ρ π old (e ▸ hp) hπ)⟩
  refine ⟨fun ρ p b hx => ?_, fun ρ p hx => ?_, fun ρ σ p hx hy => ?_, fun b ρ q hx => ?_⟩
  · rcases hcases ρ p hx with ⟨rfl, rfl⟩ | ⟨hne, hρ, hpo⟩
    · rw [hcn, h.child ρ old b hπ, update_of_ne (cons_ne_self b ρ)]
    · rw [hc p b ⟨ρ, hρ⟩ hpo, h.child ρ p b hρ, hmap]
  · rcases hcases ρ p hx with ⟨rfl, rfl⟩ | ⟨hne, hρ, hpo⟩
    · rw [hpn, h.parent ρ old hπ]
      cases ρ with
      | nil => rfl
      | cons b ρ => exact (update_of_ne (cons_ne_self b ρ).symm ..).symm
    · rw [hp p ⟨ρ, hρ⟩ hpo, h.parent ρ p hρ]
      cases ρ with
      | nil => rfl
      | cons b ρ => exact hmap ρ
  · rcases hcases ρ p hx with ⟨rfl, rfl⟩ | ⟨_, hρ, _⟩
    · rcases hcases σ p hy with ⟨rfl, _⟩ | ⟨_, hσ, _⟩
      · rfl
      · exact absurd ⟨σ, hσ⟩ hn
    · rcases hcases σ p hy with ⟨rfl, rfl⟩ | ⟨_, hσ, _⟩
      · exact absurd ⟨ρ, hρ⟩ hn
      · exact h.inj ρ σ p hρ hσ
  · have hsome : ∃ x, T (b :: ρ) = some x := by
      rcases hcases _ q hx with ⟨rfl, _⟩ | ⟨_, hρ, _⟩
      · exact ⟨old, hπ⟩
      · exact ⟨q, hρ⟩
    obtain ⟨x, hx'⟩ := hsome
    obtain ⟨y, hy⟩ := h.closed b ρ x hx'
    exact ⟨rename old node y, by rw [← hmap, hy, map_some]⟩

end Update

/-- **A leaf is removed.** -/
theorem Holds.cut (h : Holds v T) (hπ : T π = some p) (hq : T (b :: π) = some q)
    (hleaf : ∀ c, T (c :: b :: π) = none)
    (hc : ∀ x c, Mem T x → x ≠ q → (x = p ∧ c = b → v'.child x c = none) ∧
      (¬ (x = p ∧ c = b) → v'.child x c = v.child x c))
    (hp : ∀ x, Mem T x → x ≠ q → v'.parent x = v.parent x) :
    Holds v' (update T (b :: π) none) := by
  have hcases : ∀ ρ x, update T (b :: π) none ρ = some x → ρ ≠ b :: π ∧ T ρ = some x ∧ x ≠ q := by
    intro ρ x hx
    by_cases hρ : ρ = b :: π
    · rw [hρ, update_self] at hx
      nomatch hx
    · rw [update_of_ne hρ] at hx
      exact ⟨hρ, hx, fun e => hρ (h.inj ρ _ q (e ▸ hx) hq)⟩
  refine ⟨fun ρ x c hx => ?_, fun ρ x hx => ?_, fun ρ σ x hx hy => ?_, fun c ρ x hx => ?_⟩
  · obtain ⟨hne, hρ, hxq⟩ := hcases ρ x hx
    by_cases he : x = p ∧ c = b
    · obtain rfl := h.inj ρ π p (he.1 ▸ hρ) hπ
      rw [(hc x c ⟨ρ, hρ⟩ hxq).1 he, he.2, update_self]
    · have hne' : c :: ρ ≠ b :: π := by
        intro e
        obtain ⟨rfl, rfl⟩ := List.cons.inj e
        exact he ⟨Option.some.inj (hρ.symm.trans hπ), rfl⟩
      rw [(hc x c ⟨ρ, hρ⟩ hxq).2 he, update_of_ne hne']
      exact h.child ρ x c hρ
  · obtain ⟨hne, hρ, hxq⟩ := hcases ρ x hx
    rw [hp x ⟨ρ, hρ⟩ hxq, h.parent ρ x hρ]
    cases ρ with
    | nil => rfl
    | cons c ρ =>
      have hne' : ρ ≠ b :: π := by
        rintro rfl
        rw [hleaf c] at hρ
        nomatch hρ
      exact (update_of_ne hne' ..).symm
  · exact h.inj ρ σ x (hcases ρ x hx).2.1 (hcases σ x hy).2.1
  · obtain ⟨hne, hρ, _⟩ := hcases _ x hx
    obtain ⟨y, hy⟩ := h.closed c ρ x hρ
    have hne' : ρ ≠ b :: π := by
      rintro rfl
      rw [hleaf c] at hρ
      nomatch hρ
    exact ⟨y, by rw [update_of_ne hne', hy]⟩

/-! ## A tree below a node -/

/-- The tree `U` hangs at `π`. -/
def plug (T : Shape P) (π : Path) (U : Shape P) : Shape P := fun ρ =>
  if π.isSuffixOf ρ then U (ρ.take (ρ.length - π.length)) else T ρ

theorem plug_below (T U : Shape P) (π σ : Path) : plug T π U (σ ++ π) = U σ := by
  rw [plug, if_pos (isSuffixOf_iff_suffix.mpr (suffix_append σ π)), length_append,
    Nat.add_sub_cancel, take_left]

theorem plug_other (U : Shape P) (h : ∀ σ, ρ ≠ σ ++ π) : plug T π U ρ = T ρ := by
  rw [plug, if_neg]
  intro hs
  obtain ⟨σ, hσ⟩ := isSuffixOf_iff_suffix.mp hs
  exact h σ hσ.symm

theorem plug_cases (ρ : Path) :
    (∃ σ, ρ = σ ++ π ∧ plug T π U ρ = U σ) ∨ ((∀ σ, ρ ≠ σ ++ π) ∧ plug T π U ρ = T ρ) := by
  by_cases h : ∃ σ, ρ = σ ++ π
  · obtain ⟨σ, rfl⟩ := h
    exact .inl ⟨σ, rfl, plug_below T U π σ⟩
  · have h' : ∀ σ, ρ ≠ σ ++ π := fun σ e => h ⟨σ, e⟩
    exact .inr ⟨h', plug_other U h'⟩

/-- The nodes of the tree after the place of one of them has changed. -/
theorem Holds.mem_update (h : Holds v T) (hp : T ρ = some p) {o : Option P} (x : P) :
    Mem (update T ρ o) x ↔ (Mem T x ∧ x ≠ p) ∨ o = some x := by
  constructor
  · rintro ⟨σ, hσ⟩
    by_cases e : σ = ρ
    · rw [e, update_self] at hσ
      exact .inr hσ
    · rw [update_of_ne e] at hσ
      exact .inl ⟨⟨σ, hσ⟩, fun hxp => e (h.inj σ ρ p (hxp ▸ hσ) hp)⟩
  · rintro (⟨⟨σ, hσ⟩, hxp⟩ | ho)
    · have e : σ ≠ ρ := fun e => hxp (Option.some.inj (hσ.symm.trans (e ▸ hp)))
      exact ⟨σ, by rw [update_of_ne e, hσ]⟩
    · exact ⟨ρ, by rw [update_self, ho]⟩

/-- A single node at an empty place. -/
theorem Holds.plug_single (h : Holds v T) (hπ : T π = none) : plug T π (single p) = update T π (some p) := by
  funext ρ
  rcases plug_cases (T := T) (U := single p) (π := π) ρ with ⟨σ, rfl, e⟩ | ⟨hne, e⟩
  · rw [e]
    cases σ with
    | nil => simp [single]
    | cons c σ =>
      have hne : c :: σ ++ π ≠ π := fun he => by
        have := congrArg List.length he
        simp at this
        omega
      rw [update_of_ne hne, h.none_append hπ]
      rfl
  · rw [e, update_of_ne (show ρ ≠ π from hne [])]

/-- **A tree is hung below a node.** -/
theorem Holds.join (h : Holds v T) (hU : Holds v U) (hdis : ∀ x, Mem T x → ¬ Mem U x) (hπ : T π = some p)
    (hb : T (b :: π) = none) (hq : U [] = some q) (hcp : v'.child p b = some q) (hpq : v'.parent q = some p)
    (hc : ∀ x c, ¬ (x = p ∧ c = b) → v'.child x c = v.child x c)
    (hp : ∀ x, x ≠ q → v'.parent x = v.parent x) : Holds v' (plug T (b :: π) U) := by
  have hcases : ∀ ρ x, plug T (b :: π) U ρ = some x → (∃ σ, ρ = σ ++ b :: π ∧ U σ = some x ∧ ¬ Mem T x) ∨
        ((∀ σ, ρ ≠ σ ++ b :: π) ∧ T ρ = some x ∧ ¬ Mem U x) := by
    intro ρ x hx
    rcases plug_cases (T := T) (U := U) (π := b :: π) ρ with ⟨σ, rfl, e⟩ | ⟨hne, e⟩
    · rw [e] at hx
      exact .inl ⟨σ, rfl, hx, fun hm => hdis x hm ⟨σ, hx⟩⟩
    · rw [e] at hx
      exact .inr ⟨hne, hx, hdis x ⟨ρ, hx⟩⟩
  have hπ' : plug T (b :: π) U π = some p := by
    rw [plug_other, hπ]
    intro σ e
    have := congrArg List.length e
    rw [length_append, length_cons] at this
    omega
  refine ⟨fun ρ x c hx => ?_, fun ρ x hx => ?_, fun ρ σ x hx hy => ?_, fun c ρ x hx => ?_⟩
  · rcases hcases ρ x hx with ⟨σ, rfl, hσ, hxT⟩ | ⟨hne, hρ, hxU⟩
    · rw [hc x c fun e => hxT (e.1 ▸ ⟨π, hπ⟩), hU.child σ x c hσ]
      exact (plug_below T U (b :: π) (c :: σ)).symm
    · by_cases he : x = p ∧ c = b
      · obtain rfl := h.inj ρ π p (he.1 ▸ hρ) hπ
        rw [he.1, he.2, hcp, ← hq]
        exact (plug_below T U (b :: ρ) []).symm
      · rw [hc x c he, h.child ρ x c hρ, plug_other]
        intro σ e
        cases σ with
        | nil =>
          obtain ⟨rfl, rfl⟩ := List.cons.inj e
          exact he ⟨Option.some.inj (hρ.symm.trans hπ), rfl⟩
        | cons d σ => exact hne σ (List.cons.inj e).2
  · rcases hcases ρ x hx with ⟨σ, rfl, hσ, hxT⟩ | ⟨hne, hρ, hxU⟩
    · cases σ with
      | nil =>
        obtain rfl := Option.some.inj (hσ.symm.trans hq)
        rw [hpq]
        exact hπ'.symm
      | cons c σ =>
        have hxq : x ≠ q := fun e => nomatch hU.inj (c :: σ) [] x hσ (e ▸ hq)
        rw [hp x hxq, hU.parent _ x hσ]
        exact (plug_below T U (b :: π) σ).symm
    · rw [hp x (fun e => hxU (e ▸ ⟨[], hq⟩)), h.parent ρ x hρ]
      cases ρ with
      | nil => rfl
      | cons c ρ =>
        have hne' : ∀ σ, ρ ≠ σ ++ b :: π := by
          rintro σ rfl
          exact hne (c :: σ) rfl
        exact (plug_other U hne').symm
  · rcases hcases ρ x hx with ⟨σ', rfl, hσ', hxT⟩ | ⟨_, hρ, hxU⟩
    · rcases hcases σ x hy with ⟨σ'', rfl, hσ'', _⟩ | ⟨_, hσ, _⟩
      · rw [hU.inj σ' σ'' x hσ' hσ'']
      · exact absurd ⟨σ, hσ⟩ hxT
    · rcases hcases σ x hy with ⟨σ'', rfl, hσ'', _⟩ | ⟨_, hσ, _⟩
      · exact absurd ⟨σ'', hσ''⟩ hxU
      · exact h.inj ρ σ x hρ hσ
  · rcases hcases _ x hx with ⟨σ, e, hσ, _⟩ | ⟨hne, hρ, _⟩
    · cases σ with
      | nil =>
        obtain ⟨rfl, rfl⟩ := List.cons.inj e
        exact ⟨p, hπ'⟩
      | cons d σ =>
        obtain ⟨rfl, rfl⟩ := List.cons.inj e
        obtain ⟨y, hy⟩ := hU.closed c σ x hσ
        exact ⟨y, (plug_below T U (b :: π) σ).trans hy⟩
    · obtain ⟨y, hy⟩ := h.closed c ρ x hρ
      have hne' : ∀ σ, ρ ≠ σ ++ b :: π := by
        rintro σ rfl
        rw [h.none_append hb] at hy
        nomatch hy
      exact ⟨y, by rw [plug_other U hne', hy]⟩

/-! ## Lines -/

/-- The tree that goes left all the way, along these nodes. -/
def line (l : List P) : Shape P := fun ρ => if ρ.any id then none else l[ρ.length]?

theorem any_id_eq_false {ρ : Path} : ρ.any id = false ↔ ρ = List.replicate ρ.length false := by
  induction ρ with
  | nil => exact ⟨fun _ => rfl, fun _ => rfl⟩
  | cons b ρ ih =>
    rw [any_cons, Bool.or_eq_false_iff, ih, length_cons, replicate_succ, List.cons.injEq]
    rfl

theorem line_replicate (l : List P) (k : Nat) : line l (List.replicate k false) = l[k]? := by
  have h : (List.replicate k false).any id = false := by
    rw [any_id_eq_false, length_replicate]
  rw [line, h, length_replicate]
  rfl

theorem line_eq_some {l : List P} :
    line l ρ = some p ↔ ρ = List.replicate ρ.length false ∧ l[ρ.length]? = some p := by
  unfold line
  cases h : ρ.any id with
  | true =>
    refine ⟨nofun, fun e => ?_⟩
    rw [any_id_eq_false.mpr e.1] at h
    nomatch h
  | false => exact ⟨fun e => ⟨any_id_eq_false.mp h, e⟩, fun e => e.2⟩

theorem mem_line {l : List P} : Mem (line l) p ↔ p ∈ l := by
  constructor
  · rintro ⟨ρ, hρ⟩
    exact mem_of_getElem? (line_eq_some.mp hρ).2
  · intro h
    obtain ⟨k, hk⟩ := mem_iff_getElem?.mp h
    exact ⟨List.replicate k false, (line_replicate l k).trans hk⟩

theorem line_singleton (p : P) : line [p] = single p := by
  funext ρ
  cases ρ with
  | nil => rfl
  | cons b ρ =>
    show (if (b :: ρ).any id then none else [p][ρ.length + 1]?) = none
    split <;> rfl

theorem line_concat (l : List P) (p : P) :
    line (l ++ [p]) = update (line l) (List.replicate l.length false) (some p) := by
  funext ρ
  by_cases h : ρ = List.replicate l.length false
  · rw [h, update_self, line_replicate, List.getElem?_concat_length]
  · rw [update_of_ne h, line, line]
    cases ha : ρ.any id with
    | true => rfl
    | false =>
      have hne : ρ.length ≠ l.length := fun e => h (e ▸ any_id_eq_false.mp ha)
      simp only [Bool.false_eq_true, if_false]
      rcases Nat.lt_or_gt_of_ne hne with hlt | hlt
      · exact List.getElem?_append_left hlt
      · rw [List.getElem?_eq_none (by rw [length_append, length_singleton]; omega),
          List.getElem?_eq_none (by omega)]

theorem line_cons (p : P) (l : List P) : line (p :: l) = plug (single p) [false] (line l) := by
  funext ρ
  rcases plug_cases (T := single p) (U := line l) (π := [false]) ρ with ⟨σ, rfl, e⟩ | ⟨hne, e⟩
  · rw [e, line, line, any_append, length_append]
    simp
  · rw [e]
    cases ρ with
    | nil => rfl
    | cons b ρ =>
      show line (p :: l) (b :: ρ) = none
      cases h : line (p :: l) (b :: ρ) with
      | none => rfl
      | some q =>
        have hρ := (line_eq_some.mp h).1
        rw [length_cons, replicate_succ'] at hρ
        exact absurd hρ (hne _)

end LinuxKernel.LinkedTree
