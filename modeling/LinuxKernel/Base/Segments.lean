/-
  Interval maps: a partial function on the integers kept as a list of segments.

  1. **Data** — a `Seg` gives one value to all points of `[lo, hi]`.  A list is `Canonical` when its
     segments are non-empty, in ascending order, disjoint, and no two neighbours that TOUCH carry the
     same value; then it is the only list for its function.

  2. **Assignment** — `assign v s e l` gives the points of `[s, e]` the value `v` (or takes their value
     away, `v = none`).  It is one pass: `assign` walks over the segments in front of the range, `absorb`
     swallows those the new segment replaces or merges with.

  3. **Results** — `canonical_assign` and `lookup_assign`: the list stays canonical, and it is the
     function update it should be.  Both come from one specification of the pass (`assign_spec`), stated
     with `Covers`, which is additive over `++`; so is canonicity (`canonical_cons`), and swallowing is
     the pass itself on segments that all start behind the range's start (`absorb_eq_assign`).
-/
import Mathlib

namespace LinuxKernel.Segments

open List
variable {τ : Type}

/-! ## Data -/

/-- The points of `[lo, hi]` have value `val`. -/
structure Seg (τ : Type) where
  lo : Int
  hi : Int
  val : τ
  deriving DecidableEq, Repr

/-- `x` lies before `y`, and the two could not be one segment. -/
def Seg.Before (x y : Seg τ) : Prop := x.hi < y.lo ∧ (x.val = y.val → x.hi + 1 < y.lo)

/-- The canonical lists. -/
structure Canonical (l : List (Seg τ)) : Prop where
  nonempty : ∀ x ∈ l, x.lo ≤ x.hi
  order : l.Pairwise Seg.Before

/-- The value at point `b`. -/
def lookup (l : List (Seg τ)) (b : Int) : Option τ :=
  (l.find? fun x => x.lo ≤ b ∧ b ≤ x.hi).map Seg.val

/-- Some segment gives point `b` the value `u`. -/
def Covers (l : List (Seg τ)) (b : Int) (u : τ) : Prop := ∃ x ∈ l, x.lo ≤ b ∧ b ≤ x.hi ∧ x.val = u

/-- The new segment, if there is one. -/
def mid (v : Option τ) (s e : Int) : List (Seg τ) :=
  match v with
  | some u => [⟨s, e, u⟩]
  | none => []

/-! ## Covering -/

@[simp] theorem covers_nil (b : Int) (u : τ) : Covers [] b u ↔ False :=
    ⟨fun ⟨_, h, _⟩ => (nomatch h), False.elim⟩

@[simp] theorem covers_cons (x : Seg τ) (l : List (Seg τ)) (b : Int) (u : τ) :
    Covers (x :: l) b u ↔ (x.lo ≤ b ∧ b ≤ x.hi ∧ x.val = u) ∨ Covers l b u := by
  simp [Covers]

@[simp] theorem covers_append (l1 l2 : List (Seg τ)) (b : Int) (u : τ) :
    Covers (l1 ++ l2) b u ↔ Covers l1 b u ∨ Covers l2 b u := by
  simp [Covers, or_and_right, exists_or]

@[simp] theorem covers_mid (v : Option τ) (s e b : Int) (u : τ) :
    Covers (mid v s e) b u ↔ s ≤ b ∧ b ≤ e ∧ v = some u := by
  cases v <;> simp [mid]

theorem canonical_nil : Canonical ([] : List (Seg τ)) := ⟨nofun, List.Pairwise.nil⟩

variable {l : List (Seg τ)}

/-- A canonical list, by what it covers: nothing at or before the end of its first segment, and no point
    next to it with the same value. -/
theorem canonical_cons {x : Seg τ} : Canonical (x :: l) ↔ x.lo ≤ x.hi ∧ Canonical l ∧
      ∀ b u, Covers l b u → x.hi < b ∧ (x.val = u → x.hi + 1 < b) := by
  constructor
  · intro h
    obtain ⟨hb, hord⟩ := pairwise_cons.mp h.order
    refine ⟨h.nonempty x (mem_cons_self ..), ⟨fun y hy => h.nonempty y (mem_cons_of_mem x hy), hord⟩, ?_⟩
    rintro b u ⟨y, hy, hlo, _, rfl⟩
    obtain ⟨h1, h2⟩ := hb y hy
    exact ⟨by omega, fun hv => by have := h2 hv; omega⟩
  · rintro ⟨hx, hl, hb⟩
    refine ⟨forall_mem_cons.mpr ⟨hx, hl.nonempty⟩, pairwise_cons.mpr ⟨fun y hy => ?_, hl.order⟩⟩
    exact hb y.lo y.val ⟨y, hy, Int.le_refl _, hl.nonempty y hy, rfl⟩

theorem Canonical.tail {x : Seg τ} {l : List (Seg τ)} (h : Canonical (x :: l)) : Canonical l :=
  (canonical_cons.mp h).2.1

/-- In a canonical list `lookup` finds the only segment there is. -/
theorem lookup_eq_some (h : Canonical l) (b : Int) (u : τ) : lookup l b = some u ↔ Covers l b u := by
  induction l with
  | nil => simp [lookup]
  | cons x l ih =>
    obtain ⟨_, hl, hahead⟩ := canonical_cons.mp h
    have ih' := ih hl
    rw [covers_cons, lookup, List.find?_cons]
    by_cases hb : x.lo ≤ b ∧ b ≤ x.hi
    · simp only [hb, and_self, decide_true, Option.map_some, Option.some.injEq, true_and]
      refine ⟨Or.inl, fun hc => hc.resolve_right fun hc => ?_⟩
      have := (hahead b u hc).1
      omega
    · rw [lookup] at ih'
      simp only [hb, decide_false]
      rw [ih']
      exact ⟨Or.inr, fun hc => hc.resolve_left fun hc => hb ⟨hc.1, hc.2.1⟩⟩

variable {v : Option τ} {s e : Int}

/-- A new segment in front of segments that lie behind it. -/
theorem canonical_mid (hse : s ≤ e) (h : Canonical l)
    (hb : ∀ b u, Covers l b u → e < b ∧ (v = some u → e + 1 < b)) : Canonical (mid v s e ++ l) := by
  cases v with
  | none => exact h
  | some w => exact canonical_cons.mpr ⟨hse, h, fun b u hc =>
      ⟨(hb b u hc).1, fun hw => (hb b u hc).2 (congrArg some hw)⟩⟩

/-! ## Assignment -/

variable [DecidableEq τ]

/-- The range is `[s, e]` and everything ahead starts behind `s`. -/
def absorb (v : Option τ) (s e : Int) : List (Seg τ) → List (Seg τ)
  | [] => mid v s e
  | x :: xs =>
      if v = some x.val then
        if x.lo - 1 > e then mid v s e ++ x :: xs
        else absorb v s (max e x.hi) xs
      else if x.lo > e then mid v s e ++ x :: xs
      else if x.hi > e then mid v s e ++ ⟨e + 1, x.hi, x.val⟩ :: xs
      else absorb v s e xs

/-- Give `[s, e]` the value `v`. -/
def assign (v : Option τ) (s e : Int) : List (Seg τ) → List (Seg τ)
  | [] => mid v s e
  | x :: xs =>
      if v = some x.val then
        if x.hi < s - 1 then x :: assign v s e xs
        else if x.lo - 1 > e then mid v s e ++ x :: xs
        else absorb v (min s x.lo) (max e x.hi) xs
      else if x.hi < s then x :: assign v s e xs
      else if x.lo > e then mid v s e ++ x :: xs
      else if x.lo < s then
        if x.hi > e then ⟨x.lo, s - 1, x.val⟩ :: (mid v s e ++ ⟨e + 1, x.hi, x.val⟩ :: xs)
        else ⟨x.lo, s - 1, x.val⟩ :: assign v s e xs
      else if x.hi > e then mid v s e ++ ⟨e + 1, x.hi, x.val⟩ :: xs
      else absorb v s e xs

/-! ## The passes -/

/-- When everything ahead starts behind `s`, the pass is swallowing. -/
theorem absorb_eq_assign (h : ∀ x ∈ l, s < x.lo ∧ x.lo ≤ x.hi) : absorb v s e l = assign v s e l := by
  induction l generalizing e with
  | nil => rfl
  | cons x l ih =>
    obtain ⟨h1, h2⟩ := h x (mem_cons_self ..)
    have hl : min s x.lo = s := by omega
    simp only [assign, absorb, hl, if_neg (show ¬ x.hi < s - 1 by omega),
      if_neg (show ¬ x.hi < s by omega), if_neg (show ¬ x.lo < s by omega)]

/-- **One pass.** -/
theorem assign_spec (v : Option τ) (xs : List (Seg τ)) : ∀ s e : Int, s ≤ e → Canonical xs →
    Canonical (assign v s e xs) ∧ ∀ b u, Covers (assign v s e xs) b u ↔
      (s ≤ b ∧ b ≤ e ∧ v = some u) ∨ (¬ (s ≤ b ∧ b ≤ e) ∧ Covers xs b u) := by
  induction xs with
  | nil =>
    intro s e hse _
    have hc := canonical_mid (v := v) hse canonical_nil fun b u h => ((covers_nil b u).mp h).elim
    rw [append_nil] at hc
    exact ⟨hc, fun b u => by rw [assign]; simp⟩
  | cons x xs ih =>
    intro s e hse hcan
    obtain ⟨hx, hxs, hahead⟩ := canonical_cons.mp hcan
    -- what is left of the list is swallowed
    have hswallow : ∀ s' e' : Int, s' ≤ x.hi → absorb v s' e' xs = assign v s' e' xs := by
      intro s' e' hs'
      refine absorb_eq_assign fun y hy => ?_
      have hne := hxs.nonempty y hy
      have := (hahead y.lo y.val ⟨y, hy, Int.le_refl _, hne, rfl⟩).1
      exact ⟨by omega, hne⟩
    -- the new segment goes in front of `l`
    have hplace : ∀ l : List (Seg τ), Canonical l → (∀ b u, Covers l b u → e < b ∧ (v = some u → e + 1 < b)) →
        (∀ b u, ¬ (s ≤ b ∧ b ≤ e) → (Covers l b u ↔ Covers (x :: xs) b u)) →
        Canonical (mid v s e ++ l) ∧ ∀ b u, Covers (mid v s e ++ l) b u ↔
          (s ≤ b ∧ b ≤ e ∧ v = some u) ∨ (¬ (s ≤ b ∧ b ≤ e) ∧ Covers (x :: xs) b u) := by
      intro l hl hb hcov
      refine ⟨canonical_mid hse hl hb, fun b u => ?_⟩
      rw [covers_append, covers_mid]
      grind
    -- `x` stays, up to `hi`
    have hkeep : ∀ hi < s, x.lo ≤ hi → hi ≤ x.hi → x.hi ≤ e → (x.hi = hi ∨ hi + 1 = s) →
      (v = some x.val → hi + 1 < s) →
        Canonical (⟨x.lo, hi, x.val⟩ :: assign v s e xs) ∧
        ∀ b u, Covers (⟨x.lo, hi, x.val⟩ :: assign v s e xs) b u ↔
          (s ≤ b ∧ b ≤ e ∧ v = some u) ∨ (¬ (s ≤ b ∧ b ≤ e) ∧ Covers (x :: xs) b u) := by
      obtain ⟨ih1, ih2⟩ := ih s e hse hxs
      simp only [canonical_cons, covers_cons]
      grind
    rw [assign]
    split_ifs with hv h1 h2 h1 h2 h3 h4 h4
    · exact hkeep x.hi (by omega) hx (Int.le_refl _) (by omega) (Or.inl rfl) fun _ => by omega
    · refine hplace _ hcan ?_ fun _ _ _ => Iff.rfl
      simp only [covers_cons]
      grind
    · -- merge with `x`
      rw [hswallow _ _ (by omega)]
      obtain ⟨ih1, ih2⟩ := ih (min s x.lo) (max e x.hi) (by omega) hxs
      simp only [covers_cons]
      grind
    · exact hkeep x.hi h1 hx (Int.le_refl _) (by omega) (Or.inl rfl) fun h => absurd h hv
    · refine hplace _ hcan ?_ fun _ _ _ => Iff.rfl
      simp only [covers_cons]
      grind
    · -- the range lies inside `x`
      have hcut : Canonical (⟨e + 1, x.hi, x.val⟩ :: xs) := canonical_cons.mpr ⟨by grind, hxs, hahead⟩
      simp only [canonical_cons, covers_cons, covers_append, covers_mid]
      refine ⟨⟨by grind, canonical_mid hse hcut ?_, ?_⟩, ?_⟩
      · simp only [covers_cons]
        grind
      · grind
      · grind
    · exact hkeep (s - 1) (by omega) (by omega) (by omega) (by omega) (Or.inr (by omega)) fun h => absurd h hv
    · refine hplace _ (canonical_cons.mpr ⟨?_, hxs, hahead⟩) ?_ ?_
      · grind
      · simp only [covers_cons]
        grind
      · simp only [covers_cons]
        grind
    · -- `x` lies inside the range
      rw [hswallow _ _ (by omega)]
      obtain ⟨ih1, ih2⟩ := ih s e hse hxs
      simp only [covers_cons]
      grind

theorem canonical_assign (hse : s ≤ e) (h : Canonical l) : Canonical (assign v s e l) :=
    (assign_spec v l s e hse h).1

/-- **`assign` is the function update it should be.** -/
theorem lookup_assign (hse : s ≤ e) (h : Canonical l) (b : Int) :
    lookup (assign v s e l) b = if s ≤ b ∧ b ≤ e then v else lookup l b := by
  obtain ⟨hcan, hcov⟩ := assign_spec v l s e hse h
  refine Option.ext fun u => ?_
  rw [lookup_eq_some hcan, hcov]
  by_cases hb : s ≤ b ∧ b ≤ e
  · rw [if_pos hb]; exact ⟨fun hc => hc.elim (fun hc => hc.2.2) fun hc => absurd hb hc.1,
      fun hc => Or.inl ⟨hb.1, hb.2, hc⟩⟩
  · rw [if_neg hb, lookup_eq_some h]
    exact ⟨fun hc => hc.elim (fun hc => absurd ⟨hc.1, hc.2.1⟩ hb) And.right, fun hc => Or.inr ⟨hb, hc⟩⟩

end LinuxKernel.Segments
