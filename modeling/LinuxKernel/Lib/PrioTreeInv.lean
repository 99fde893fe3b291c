/-
  Priority search trees, and removal (`lib/prio_tree.c`).

  1. **The tree** (`Pst`) — the path of a node consists of the bits of its radix index, and then of its
     size (`pathOf`); every node is above its children in the order of the heap.  It follows that no two
     nodes have the same interval, and that no path is longer than the bits of both indices.

  2. **Removal** — the first loop of `prio_tree_remove` follows the best child down to a leaf (`Best`),
     the second one moves every node on this way up by one place.  AFTER EVERY TURN the tree is a
     priority search tree; the node in hand (`Displaced`) is the one that has just been pushed out.
-/
import LinuxKernel.Lib.PrioTreeLinks

namespace LinuxKernel.PrioTree

open Option
open List (length_cons)
open Function LinkedTree

/-! ## The order and the paths -/

/-- The order of the heap: larger heap indices, and among equal ones smaller radix indices, are above. -/
def Above (x y : Nat × Nat) : Prop := y.2 < x.2 ∨ (y.2 = x.2 ∧ x.1 < y.1)

theorem Above.trans {x y z : Nat × Nat} (h1 : Above x y) (h2 : Above y z) : Above x z := by
  unfold Above at *
  omega

theorem Above.irrefl {x : Nat × Nat} : ¬ Above x x := by
  unfold Above
  omega

theorem above_total {x y : Nat × Nat} (h : ¬ Above x y) : Above y x ∨ y = x := by
  obtain ⟨r, h1⟩ := x
  obtain ⟨r', h2⟩ := y
  simp only [Above, Prod.mk.injEq] at *
  omega

variable (A : Arch)

/-- The turn at depth `d`, in a tree with `b` index bits: first the bits of the radix index, then those of
    the size. -/
def dirAt (b : Nat) (x : Nat × Nat) (d : Nat) : Bool :=
  if d < b then x.1.testBit (b - 1 - d) else (x.2 - x.1).testBit (A.bitsPerLong - 1 - (d - b))

/-- The path to depth `d`. -/
def pathOf (b : Nat) (x : Nat × Nat) : Nat → Path
  | 0 => []
  | d + 1 => dirAt A b x d :: pathOf b x d

variable {A} {b : Nat}

theorem length_pathOf (x : Nat × Nat) : ∀ d, (pathOf A b x d).length = d := by
  intro d
  induction d with
  | zero => rfl
  | succ d ih => rw [pathOf, length_cons, ih]

theorem pathOf_eq_iff {x y : Nat × Nat} : ∀ n,
    pathOf A b x n = pathOf A b y n ↔ ∀ d, d < n → dirAt A b x d = dirAt A b y d := by
  intro n
  induction n with
  | zero => exact ⟨fun _ d hd => absurd hd (Nat.not_lt_zero d), fun _ => rfl⟩
  | succ n ih =>
    rw [pathOf, pathOf, List.cons.injEq, ih]
    constructor
    · rintro ⟨h1, h2⟩ d hd
      rcases Nat.lt_succ_iff_lt_or_eq.mp hd with hd | rfl
      · exact h2 d hd
      · exact h1
    · intro h
      exact ⟨h n (Nat.lt_succ_self n), fun d hd => h d (Nat.lt_succ_of_lt hd)⟩

/-- A longer path starts with the shorter one. -/
theorem pathOf_add (x : Nat × Nat) (n : Nat) :
    ∀ k, ∃ σ, pathOf A b x (k + n) = σ ++ pathOf A b x n ∧ σ.length = k := by
  intro k
  induction k with
  | zero => exact ⟨[], by rw [Nat.zero_add]; rfl, rfl⟩
  | succ k ih =>
    obtain ⟨σ, hσ, hlen⟩ := ih
    refine ⟨dirAt A b x (k + n) :: σ, ?_, by rw [length_cons, hlen]⟩
    rw [show k + 1 + n = k + n + 1 by omega, pathOf, hσ]
    rfl

/-- The interval fits in a tree with `b` index bits. -/
def Fits (b : Nat) (x : Nat × Nat) : Prop := x.1 ≤ x.2 ∧ x.2 < 2 ^ b

/-- The turn at depth `d < b` is bit `b - 1 - d` of the radix index; the higher bits are 0. -/
theorem testBit_radix {x y : Nat × Nat} (hx : Fits b x) (hy : Fits b y) {i : Nat}
    (h : i < b → dirAt A b x (b - 1 - i) = dirAt A b y (b - 1 - i)) : x.1.testBit i = y.1.testBit i := by
  by_cases hi : i < b
  · have := h hi
    unfold dirAt at this
    rwa [if_pos (by omega), if_pos (by omega), show b - 1 - (b - 1 - i) = i by omega] at this
  · have hpow : 2 ^ b ≤ 2 ^ i := Nat.pow_le_pow_right (by omega) (by omega)
    rw [Nat.testBit_lt_two_pow (by have := hx.1; have := hx.2; omega),
      Nat.testBit_lt_two_pow (by have := hy.1; have := hy.2; omega)]

/-- The radix index is determined by the first `b` turns. -/
theorem radix_eq {x y : Nat × Nat} (hx : Fits b x) (hy : Fits b y)
    (h : ∀ d, d < b → dirAt A b x d = dirAt A b y d) : x.1 = y.1 :=
  Nat.eq_of_testBit_eq fun i => testBit_radix hx hy fun _ => h (b - 1 - i) (by omega)

/-- The interval is determined by all turns. -/
theorem index_eq {x y : Nat × Nat} (hb : b ≤ A.bitsPerLong) (hx : Fits b x) (hy : Fits b y)
    (h : pathOf A b x (b + A.bitsPerLong) = pathOf A b y (b + A.bitsPerLong)) : x = y := by
  rw [pathOf_eq_iff] at h
  have hradix := radix_eq hx hy fun d hd => h d (by omega)
  have hsize : x.2 - x.1 = y.2 - y.1 := by
    refine Nat.eq_of_testBit_eq fun i => ?_
    by_cases hi : i < A.bitsPerLong
    · have := h (b + (A.bitsPerLong - 1 - i)) (by omega)
      unfold dirAt at this
      rwa [if_neg (by omega), if_neg (by omega),
        show A.bitsPerLong - 1 - (b + (A.bitsPerLong - 1 - i) - b) = i by omega] at this
    · have hpow : 2 ^ b ≤ 2 ^ i := Nat.pow_le_pow_right (by omega) (by omega)
      rw [Nat.testBit_lt_two_pow (by have := hx.2; omega), Nat.testBit_lt_two_pow (by have := hy.2; omega)]
  have := hx.1
  have := hy.1
  exact Prod.ext hradix (by omega)

/-! ## The tree -/

variable (A) (ix : Ptr → Nat × Nat)

/-- **A priority search tree** with `b` index bits. -/
structure Pst (b : Nat) (T : Shape Ptr) : Prop where
  closed : ∀ c π q, T (c :: π) = some q → ∃ p, T π = some p
  heap : ∀ c π p q, T π = some p → T (c :: π) = some q → Above (ix p) (ix q)
  placed : ∀ π p, T π = some p → π = pathOf A b (ix p) π.length
  fits : ∀ π p, T π = some p → Fits b (ix p)

variable {A} {ix} {T : Shape Ptr} {π ρ : Path} {p q x : Ptr}

section
variable (h : Pst A ix b T)
include h

/-- A node is above everything below it. -/
theorem Pst.above (hp : T π = some p) (σ : Path) :
    ∀ q : Ptr, σ ≠ [] → T (σ ++ π) = some q → Above (ix p) (ix q) := by
  induction σ with
  | nil => intro q hne; exact absurd rfl hne
  | cons c σ ih =>
    intro q _ hq
    obtain ⟨y, hy⟩ := h.closed c (σ ++ π) q hq
    have hyq := h.heap c (σ ++ π) y q hy hq
    by_cases hσ : σ = []
    · subst hσ
      rwa [some.inj (hp.symm.trans hy)]
    · exact (ih y hσ hy).trans hyq

/-- No two nodes have the same interval. -/
theorem Pst.unique (hp : T π = some p) (hq : T ρ = some q) (he : ix p = ix q) : π = ρ := by
  have key : ∀ (π ρ : Path) (p q : Ptr), T π = some p → T ρ = some q → ix p = ix q →
    π.length ≤ ρ.length → π = ρ := by
    intro π ρ p q hp hq he hle
    have hπ := h.placed π p hp
    have hρ := h.placed ρ q hq
    obtain ⟨σ, hσ, hlen⟩ := pathOf_add (A := A) (b := b) (ix q) π.length (ρ.length - π.length)
    rw [Nat.sub_add_cancel hle, ← hρ, ← he, ← hπ] at hσ
    by_cases hnil : σ = []
    · rw [hσ, hnil, List.nil_append]
    · have := h.above hp σ q hnil (hσ ▸ hq)
      rw [he] at this
      exact absurd this Above.irrefl
  rcases Nat.le_total π.length ρ.length with hle | hle
  · exact key π ρ p q hp hq he hle
  · exact (key ρ π q p hq hp he.symm hle).symm

/-- No path is longer than the bits of both indices. -/
theorem Pst.length_le (hb : b ≤ A.bitsPerLong) (hp : T π = some p) : π.length ≤ b + A.bitsPerLong := by
  by_contra hlt
  have hplaced := h.placed π p hp
  obtain ⟨σ, hσ, hlen⟩ :=
    pathOf_add (A := A) (b := b) (ix p) (b + A.bitsPerLong) (π.length - (b + A.bitsPerLong))
  rw [Nat.sub_add_cancel (by omega), ← hplaced] at hσ
  -- the node on the way at which both indices have been used up
  have hex : ∀ (τ : Path), (∃ y, T (τ ++ pathOf A b (ix p) (b + A.bitsPerLong)) = some y) →
      ∃ y, T (pathOf A b (ix p) (b + A.bitsPerLong)) = some y := by
    intro τ
    induction τ with
    | nil => exact id
    | cons c τ ih =>
      rintro ⟨y, hy⟩
      exact ih (h.closed c _ y hy)
  obtain ⟨y, hy⟩ := hex σ ⟨p, hσ ▸ hp⟩
  have hy' := h.placed _ y hy
  rw [length_pathOf] at hy'
  have he := index_eq hb (h.fits π p hp) (h.fits _ y hy) hy'
  have hne : σ ≠ [] := by
    rintro rfl
    rw [List.length_nil] at hlen
    omega
  have := h.above hy σ p hne (hσ ▸ hp)
  rw [he] at this
  exact Above.irrefl this

/-- A node that belongs there is put in a place. -/
theorem Pst.put (hup : π = [] ∨ ∃ y, up T π = some y) (hplaced : π = pathOf A b (ix x) π.length)
    (hfits : Fits b (ix x))
    (habove : ∀ y, up T π = some y → Above (ix y) (ix x))
    (hbelow : ∀ c y, T (c :: π) = some y → Above (ix x) (ix y)) :
    Pst A ix b (update T π (some x)) := by
  have hcases : ∀ ρ y, update T π (some x) ρ = some y → (ρ = π ∧ y = x) ∨ (ρ ≠ π ∧ T ρ = some y) := by
    intro ρ y hy
    by_cases hρ : ρ = π
    · rw [hρ, update_self] at hy
      exact .inl ⟨hρ, (some.inj hy).symm⟩
    · rw [update_of_ne hρ] at hy
      exact .inr ⟨hρ, hy⟩
  refine ⟨fun c ρ y hy => ?_, fun c ρ y z hy hz => ?_, fun ρ y hy => ?_, fun ρ y hy => ?_⟩
  · by_cases hρ : ρ = π
    · exact ⟨x, by rw [hρ, update_self]⟩
    · rw [update_of_ne hρ]
      rcases hcases _ y hy with ⟨rfl, rfl⟩ | ⟨_, hy'⟩
      · rcases hup with e | hy'
        · nomatch e
        · exact hy'
      · exact h.closed c ρ y hy'
  · rcases hcases ρ y hy with ⟨rfl, rfl⟩ | ⟨_, hy'⟩
    · rcases hcases _ z hz with ⟨e, _⟩ | ⟨_, hz'⟩
      · exact absurd e (cons_ne_self c ρ)
      · exact hbelow c z hz'
    · rcases hcases _ z hz with ⟨rfl, rfl⟩ | ⟨_, hz'⟩
      · exact habove y hy'
      · exact h.heap c ρ y z hy' hz'
  · rcases hcases ρ y hy with ⟨rfl, rfl⟩ | ⟨_, hy'⟩
    · exact hplaced
    · exact h.placed ρ y hy'
  · rcases hcases ρ y hy with ⟨rfl, rfl⟩ | ⟨_, hy'⟩
    · exact hfits
    · exact h.fits ρ y hy'

/-- A leaf is taken away. -/
theorem Pst.drop (hleaf : ∀ c, T (c :: π) = none) : Pst A ix b (update T π none) := by
  have hcases : ∀ ρ y, update T π none ρ = some y → T ρ = some y := by
    intro ρ y hy
    by_cases hρ : ρ = π
    · rw [hρ, update_self] at hy
      nomatch hy
    · rwa [update_of_ne hρ] at hy
  refine ⟨fun c ρ y hy => ?_, fun c ρ y z hy hz => h.heap c ρ y z (hcases _ y hy) (hcases _ z hz),
    fun ρ y hy => h.placed ρ y (hcases _ y hy), fun ρ y hy => h.fits ρ y (hcases _ y hy)⟩
  by_cases hρ : ρ = π
  · have := hcases _ y hy
    rw [hρ, hleaf] at this
    nomatch this
  · rw [update_of_ne hρ]
    exact h.closed c ρ y (hcases _ y hy)

/-! ## Removal -/

/-- Between siblings with equal heap indices the left one is above: it has the smaller radix index. -/
theorem Pst.left_above {l r : Ptr} (hl : T (false :: π) = some l)
    (hr : T (true :: π) = some r) (hle : (ix r).2 ≤ (ix l).2) : Above (ix l) (ix r) := by
  rcases Nat.lt_or_eq_of_le hle with hlt | heq
  · exact .inl hlt
  · refine .inr ⟨heq, ?_⟩
    have hl' := h.placed _ l hl
    have hr' := h.placed _ r hr
    rw [length_cons, pathOf, List.cons.injEq] at hl' hr'
    have hsame := (pathOf_eq_iff _).mp (hl'.2.symm.trans hr'.2)
    have hfl := h.fits _ l hl
    have hfr := h.fits _ r hr
    by_cases hd : π.length < b
    · -- the radix indices differ in this bit first
      have hbl : (ix l).1.testBit (b - 1 - π.length) = false := by
        have := hl'.1.symm
        rwa [dirAt, if_pos hd] at this
      have hbr : (ix r).1.testBit (b - 1 - π.length) = true := by
        have := hr'.1.symm
        rwa [dirAt, if_pos hd] at this
      exact Nat.lt_of_testBit _ hbl hbr fun j hj =>
        testBit_radix hfl hfr fun _ => hsame (b - 1 - j) (by omega)
    · -- the radix indices are equal, and then so are the sizes
      have hradix := radix_eq hfl hfr fun d hd' => hsame d (by omega)
      have hdir : dirAt A b (ix l) π.length = dirAt A b (ix r) π.length := by
        unfold dirAt
        rw [if_neg hd, if_neg hd, hradix, heq]
      rw [← hl'.1, ← hr'.1] at hdir
      nomatch hdir

end

/-- From `π` down to `ρ`, always to the child that is above the other one. -/
inductive Best (ix : Ptr → Nat × Nat) (T : Shape Ptr) (π : Path) : Path → Prop
  | here : Best ix T π π
  | step (c : Bool) (ρ : Path) (p : Ptr) (h : Best ix T π ρ) (hp : T (c :: ρ) = some p)
      (hs : ∀ q, T ((!c) :: ρ) = some q → Above (ix p) (ix q)) : Best ix T π (c :: ρ)

theorem Best.le (h : Best ix T π ρ) : π.length ≤ ρ.length := by
  induction h with
  | here => exact le_rfl
  | step c ρ p _ _ _ ih => rw [length_cons]; omega

/-- Only the places that are not deeper matter. -/
theorem Best.congr {T' : Shape Ptr} (h : Best ix T π ρ) (hT : ∀ σ, σ.length ≤ ρ.length → T' σ = T σ) :
    Best ix T' π ρ := by
  induction h with
  | here => exact .here
  | step c ρ p _ hp hs ih =>
    have hlen : ∀ d : Bool, (d :: ρ).length ≤ (c :: ρ).length := fun d => by simp
    refine .step c ρ p (ih fun σ hσ => hT σ (hσ.trans (Nat.le_succ _))) ?_ ?_
    · rwa [hT _ (hlen c)]
    · rwa [hT _ (hlen _)]

section Remove
variable {s : Store}

section
variable (h : Stored s T) (hp : T π = some p)
include h hp

theorem Stored.left_eq (hq : T (false :: π) = some q) :
    (s.node p).left = q ∧ q ≠ p := Store.child_eq_some.mp ((h.links.child π p false hp).trans hq)

theorem Stored.right_eq (hq : T (true :: π) = some q) :
    (s.node p).right = q ∧ q ≠ p := Store.child_eq_some.mp ((h.links.child π p true hp).trans hq)

theorem Stored.leftEmpty_iff : s.leftEmpty p = true ↔ T (false :: π) = none := by
  rw [Store.leftEmpty_iff, ← Store.child_eq_none, h.links.child π p false hp]

theorem Stored.rightEmpty_iff : s.rightEmpty p = true ↔ T (true :: π) = none := by
  rw [Store.rightEmpty_iff, ← Store.child_eq_none, h.links.child π p true hp]

end

/-- The first loop finds a leaf, along the best children. -/
theorem findLeaf_best (h : Stored s T) (hT : Pst A ix b T) (hb : b ≤ A.bitsPerLong) (fuel : Nat) :
    ∀ (ρ : Path) (cur : Ptr), T ρ = some cur → Best ix T π ρ →
    b + A.bitsPerLong < ρ.length + fuel →
    ∃ ρ' leaf, findLeaf ix s fuel cur = some leaf ∧ T ρ' = some leaf ∧ Best ix T π ρ' ∧
    ∀ c, T (c :: ρ') = none := by
  induction fuel with
  | zero =>
    intro ρ cur hcur _ hf
    have := hT.length_le hb hcur
    omega
  | succ fuel ih =>
    intro ρ cur hcur hbest hf
    unfold findLeaf
    have hle := h.leftEmpty_iff hcur
    have hre := h.rightEmpty_iff hcur
    have hlen : ∀ c : Bool, b + A.bitsPerLong < (c :: ρ).length + fuel := fun c => by
      rw [length_cons]; omega
    cases hl : T (false :: ρ) with
    | none =>
      rw [hl] at hle
      cases hr : T (true :: ρ) with
      | none =>
        rw [hr] at hre
        refine ⟨ρ, cur, by rw [hle.mpr rfl, hre.mpr rfl]; rfl, hcur, hbest, fun c => ?_⟩
        cases c
        · exact hl
        · exact hr
      | some r =>
        have hre' : s.rightEmpty cur = false := by
          rw [← Bool.not_eq_true, hre, hr]; exact some_ne_none r
        rw [hle.mpr rfl, hre', (h.right_eq hcur hr).1]
        refine ih _ r hr (.step true ρ r hbest hr fun q hq => ?_) (hlen true)
        rw [Bool.not_true, hl] at hq
        nomatch hq
    | some l =>
      have hle' : s.leftEmpty cur = false := by
        rw [← Bool.not_eq_true, hle, hl]; exact some_ne_none l
      cases hr : T (true :: ρ) with
      | none =>
        rw [hr] at hre
        rw [hle', hre.mpr rfl, (h.left_eq hcur hl).1]
        refine ih _ l hl (.step false ρ l hbest hl fun q hq => ?_) (hlen false)
        rw [Bool.not_false, hr] at hq
        nomatch hq
      | some r =>
        have hre' : s.rightEmpty cur = false := by
          rw [← Bool.not_eq_true, hre, hr]; exact some_ne_none r
        rw [hle', hre', (h.left_eq hcur hl).1, (h.right_eq hcur hr).1]
        simp only [Bool.and_false, Bool.false_eq_true, if_false]
        split_ifs with hge
        · refine ih _ l hl (.step false ρ l hbest hl fun q hq => ?_) (hlen false)
          rw [Bool.not_false, hr] at hq
          exact some.inj hq ▸ hT.left_above hl hr hge
        · refine ih _ r hr (.step true ρ r hbest hr fun q hq => ?_) (hlen true)
          rw [Bool.not_true, hl] at hq
          exact some.inj hq ▸ .inl (by omega)

/-- What the second loop knows of the node `cur`, which has been taken from the place `c :: ρ`. -/
structure Displaced (A : Arch) (ix : Ptr → Nat × Nat) (b : Nat) (s : Store) (T : Shape Ptr) (ρ : Path)
    (c : Bool) (cur : Ptr) : Prop where
  absent : ¬ Mem T cur
  fits : Fits b (ix cur)
  placed : c :: ρ = pathOf A b (ix cur) (ρ.length + 1)
  parent : ∃ p, T ρ = some p ∧ (s.node cur).parent = p ∧ Above (ix p) (ix cur)
  above : ∀ d y, T (d :: ρ) = some y → Above (ix cur) (ix y)

variable {v : Option Ptr} {c : Bool} {ρ σ : Path}

theorem update_above (h : σ.length ≤ ρ.length) : update T (c :: ρ) v σ = T σ := by
  refine update_of_ne ?_ ..
  rintro rfl
  rw [length_cons] at h
  omega

/-- A node that is no worse than its sibling, taken from its place. -/
theorem Pst.displaced {p y : Ptr} (hT : Pst A ix b T) (hp : T (c :: ρ) = some p) (hy : T ρ = some y)
    (habsent : ¬ Mem (update T (c :: ρ) v) p) (hpar : (s.node p).parent = y)
    (hv : ∀ z, v = some z → Above (ix p) (ix z)) (hsib : ∀ z, T ((!c) :: ρ) = some z → Above (ix p) (ix z)) :
    Displaced A ix b s (update T (c :: ρ) v) ρ c p := by
  refine ⟨habsent, hT.fits _ p hp, hT.placed _ p hp, ⟨y, ?_, hpar, hT.heap c ρ y p hy hp⟩, fun d z hz => ?_⟩
  · rw [update_above le_rfl, hy]
  · by_cases e : d = c
    · rw [e, update_self] at hz
      exact hv z hz
    · rw [update_of_ne fun h => e (List.cons.inj h).1] at hz
      exact hsib z (Bool.eq_not.mpr e ▸ hz)

/-- **The second loop** ends when `node` is out of the tree. -/
theorem shiftUp_stored {node : Ptr} (fuel : Nat) : ∀ (s : Store) (T : Shape Ptr) (c : Bool) (ρ : Path)
    (cur : Ptr), Stored s T → Pst A ix b T → Best ix T π ρ → Displaced A ix b s T ρ c cur →
    T π = some node → ρ.length + 1 < π.length + fuel →
    ∃ s' T', shiftUp node fuel s cur = some s' ∧ Stored s' T' ∧ Pst A ix b T' ∧
      (∀ x, Mem T' x ↔ (Mem T x ∨ x = cur) ∧ x ≠ node) ∧ s'.root.indexBits = s.root.indexBits ∧
      s'.root.raw = s.root.raw ∧ ∀ x, ¬ Mem T x → x ≠ cur → s'.node x = s.node x := by
  induction fuel with
  | zero => intro s T c ρ cur _ _ hbest _ _ hf; have := hbest.le; omega
  | succ fuel ih =>
    intro s T c ρ cur hs hT hbest hcur hnode hf
    obtain ⟨p, hp, hpar, habove⟩ := hcur.parent
    have hne : cur ≠ node := fun e => hcur.absent (e ▸ ⟨π, hnode⟩)
    obtain ⟨s', heq, hs', hbits, hraw, hold, hframe⟩ := prioTreeReplace_stored hs hp hcur.absent
    have hplaced : ρ = pathOf A b (ix cur) ρ.length := (List.cons.inj hcur.placed).2
    have hT' : Pst A ix b (update T ρ (some cur)) := by
      refine hT.put ?_ hplaced hcur.fits (fun y hy => ?_) hcur.above
      · cases ρ with
        | nil => exact .inl rfl
        | cons d ρ => exact .inr (hT.closed d ρ p hp)
      · cases ρ with
        | nil => nomatch hy
        | cons d ρ => exact (hT.heap d ρ y p hy hp).trans habove
    have hmem : ∀ x, Mem (update T ρ (some cur)) x ↔ (Mem T x ∧ x ≠ p) ∨ x = cur := fun x => by
      rw [hs.links.mem_update hp, Option.some_inj, eq_comm (a := cur)]
    unfold shiftUp
    rw [if_neg hne, hpar, heq, bind_some]
    cases hbest with
    | here =>
      -- `node` has been replaced
      obtain rfl : p = node := some.inj (hp.symm.trans hnode)
      obtain ⟨fuel, rfl⟩ : ∃ k, fuel = k + 1 := ⟨fuel - 1, by omega⟩
      refine ⟨s', _, by rw [shiftUp, if_pos rfl], hs', hT', fun x => ?_, hbits, hraw, hframe⟩
      rw [hmem]
      constructor
      · rintro (⟨h1, h2⟩ | rfl)
        · exact ⟨.inl h1, h2⟩
        · exact ⟨.inr rfl, hne⟩
      · rintro ⟨h1 | h1, h2⟩
        · exact .inl ⟨h1, h2⟩
        · exact .inr h1
    | step d ρ' p' hbest' hp' hsib =>
      obtain rfl : p = p' := some.inj (hp.symm.trans hp')
      obtain ⟨y, hy⟩ := hT.closed d ρ' p hp
      have hdis : Displaced A ix b s' (update T (d :: ρ') (some cur)) ρ' d p := by
        refine hT.displaced hp hy (fun hm => ?_) ?_ (fun z hz => some.inj hz ▸ habove) hsib
        · rcases (hmem p).mp hm with ⟨_, h⟩ | h
          · exact h rfl
          · exact hcur.absent (h ▸ ⟨_, hp⟩)
        · rw [hold]
          exact (Store.parent_eq_some.mp ((hs.links.parent _ p hp).trans hy)).1
      obtain ⟨s'', T'', heq', hs'', hT'', hmem', hbits', hraw', hframe'⟩ := ih s' _ d ρ' p hs' hT'
        (hbest'.congr fun σ hσ => update_above hσ) hdis ((update_above hbest'.le).trans hnode)
        (by rw [length_cons] at hf; omega)
      refine ⟨s'', T'', heq', hs'', hT'', fun x => ?_, hbits'.trans hbits, hraw'.trans hraw,
        fun x hx hxc => ?_⟩
      · rw [hmem', hmem]
        constructor
        · rintro ⟨(⟨h1, _⟩ | rfl) | rfl, h2⟩
          · exact ⟨.inl h1, h2⟩
          · exact ⟨.inr rfl, h2⟩
          · exact ⟨.inl ⟨_, hp⟩, h2⟩
        · rintro ⟨h1 | rfl, h2⟩
          · by_cases e : x = p
            · exact ⟨.inr e, h2⟩
            · exact ⟨.inl (.inl ⟨h1, e⟩), h2⟩
          · exact ⟨.inl (.inr rfl), h2⟩
      · have hxp : x ≠ p := fun e => hx (e ▸ ⟨_, hp⟩)
        rw [hframe' x (fun hm => ?_) hxp, hframe x hx hxc]
        rcases (hmem x).mp hm with ⟨h, _⟩ | h
        · exact hx h
        · exact hxc h

/-- Cutting off a leaf. -/
theorem setLink_cut {leaf : Ptr} {c : Bool} (h : Stored s T) (hp : T π = some p) (hq : T (c :: π) = some leaf)
    (hleaf : ∀ d, T (d :: c :: π) = none) :
    (if (s.node p).right = leaf then s.setRight p p else s.setLeft p p) = s.setLink p c p ∧
      Stored (s.setLink p c p) (update T (c :: π) none) := by
  constructor
  · cases c with
    | true => rw [if_pos (h.right_eq hp hq).1, Store.setRight_eq]
    | false =>
      rw [if_neg, Store.setLeft_eq]
      intro hr
      have hne : leaf ≠ p := (h.left_eq hp hq).2
      have := h.mem_link (b := true) hp (show (s.node p).right ≠ p from hr ▸ hne)
      rw [show s.link p true = leaf from hr] at this
      exact Bool.noConfusion (List.cons.inj (h.links.inj _ _ leaf this hq)).1
  · refine ⟨h.links.cut hp hq hleaf (fun x d hx hxq => ⟨fun e => ?_, fun e => ?_⟩) (fun x hx hxq => ?_), ?_⟩
    · rw [Store.child_eq_none, Store.link_setLink, if_pos e, e.1]
    · simp only [Store.view, Store.link_setLink, if_neg e]
    · simp only [Store.view, Store.parent_setLink]
    · rw [Store.root_setLink, update_of_ne (List.cons_ne_nil _ _).symm, h.top]

/-- The effect of a removal, whatever becomes of `index_bits`. -/
structure Removed (A : Arch) (ix : Ptr → Nat × Nat) (b : Nat) (s s' : Store) (T T' : Shape Ptr) (node : Ptr) :
    Prop where
  stored : Stored s' T'
  pst : Pst A ix b T'
  mem : ∀ x, Mem T' x ↔ Mem T x ∧ x ≠ node
  raw : s'.root.raw = s.root.raw
  bits : s'.root.indexBits = s.root.indexBits ∨ (s'.root.indexBits = 1 ∧ T' = fun _ => none)
  frame : ∀ x, ¬ Mem T x → s'.node x = s.node x

/-- **`prio_tree_remove`** -/
theorem prioTreeRemove_removed {node : Ptr} (h : Stored s T) (hT : Pst A ix b T) (hb : b ≤ A.bitsPerLong)
    (hnode : T π = some node) :
    ∃ s' T', prioTreeRemove A ix s node = some s' ∧ Removed A ix b s s' T T' node := by
  obtain ⟨ρ', leaf, hfind, hleafAt, hbest, hleaf⟩ := findLeaf_best h hT hb (maxTurns A) π node hnode .here
    (by rw [maxTurns]; omega)
  have hdepth := hT.length_le hb hleafAt
  unfold prioTreeRemove
  rw [hfind, bind_some]
  cases ρ' with
  | nil =>
    -- the tree consists of this node
    obtain rfl : π = [] := List.length_eq_zero_iff.mp (Nat.le_zero.mp hbest.le)
    obtain rfl : leaf = node := some.inj (hleafAt.symm.trans hnode)
    have hroot : s.isRoot leaf = true :=
      Store.isRoot_iff.mpr (Store.parent_eq_none.mp (h.links.parent [] leaf hnode))
    have honly : ∀ σ : Path, σ ≠ [] → T σ = none := by
      intro σ
      induction σ with
      | nil => intro hne; exact absurd rfl hne
      | cons c σ ih =>
        intro _
        by_cases hσ : σ = []
        · rw [hσ]; exact hleaf c
        · exact h.links.none_below (ih hσ) c
    rw [if_pos hroot, if_pos (h.top.trans hnode)]
    refine ⟨_, fun _ => none, rfl, ⟨holds_empty _, rfl⟩, ⟨nofun, nofun, nofun, nofun⟩,
      fun x => ⟨fun ⟨_, e⟩ => (nomatch e), fun ⟨⟨σ, hσ⟩, hx⟩ => ?_⟩, rfl, .inr ⟨rfl, rfl⟩, fun _ _ => rfl⟩
    by_cases e : σ = []
    · exact absurd (some.inj (hσ.symm.trans (e ▸ hnode))) hx
    · rw [honly σ e] at hσ
      nomatch hσ
  | cons c ρ =>
    obtain ⟨p, hp⟩ := hT.closed c ρ leaf hleafAt
    obtain ⟨hpar, hpl⟩ := Store.parent_eq_some.mp ((h.links.parent _ leaf hleafAt).trans hp)
    have hroot : ¬ s.isRoot leaf = true := by
      rw [Store.isRoot_iff, hpar]
      exact hpl
    obtain ⟨heq, hs1⟩ := setLink_cut h hp hleafAt hleaf
    rw [if_neg hroot]
    simp only [hpar, heq]
    have hT1 := hT.drop hleaf
    have hmem : ∀ x, Mem (update T (c :: ρ) none) x ↔ Mem T x ∧ x ≠ leaf := fun x => by
      rw [h.links.mem_update hleafAt, or_iff_left nofun]
    have hframe1 : ∀ x, x ≠ p → (s.setLink p c p).node x = s.node x := fun x hx =>
      node_ext (fun d => by rw [Store.link_setLink, if_neg fun e => hx e.1]) Store.parent_setLink
    cases hbest with
    | here =>
      obtain rfl : leaf = node := some.inj (hleafAt.symm.trans hnode)
      refine ⟨s.setLink p c p, _, by rw [maxTurns, shiftUp, if_pos rfl], hs1, hT1, hmem,
        by rw [Store.root_setLink],
        .inl (by rw [Store.root_setLink]), fun x hx => hframe1 x fun e => hx (e ▸ ⟨ρ, hp⟩)⟩
    | step _ _ leaf' hbest' hp' hsib =>
      obtain rfl : leaf = leaf' := some.inj (hleafAt.symm.trans hp')
      have hdis : Displaced A ix b (s.setLink p c p) (update T (c :: ρ) none) ρ c leaf :=
        hT.displaced hleafAt hp (fun hm => ((hmem leaf).mp hm).2 rfl)
          (Store.parent_setLink.trans hpar) nofun hsib
      rw [length_cons] at hdepth
      obtain ⟨s', T', heq', hs', hT', hmem', hbits, hraw, hframe⟩ :=
        shiftUp_stored (maxTurns A) _ _ c ρ leaf hs1
        hT1 (hbest'.congr fun σ hσ => update_above hσ) hdis ((update_above hbest'.le).trans hnode)
        (by rw [maxTurns]; omega)
      rw [Store.root_setLink] at hbits hraw
      refine ⟨s', T', heq', hs', hT', fun x => ?_, hraw, .inl hbits, fun x hx => ?_⟩
      · rw [hmem', hmem]
        constructor
        · rintro ⟨⟨h1, _⟩ | rfl, h2⟩
          · exact ⟨h1, h2⟩
          · exact ⟨⟨_, hleafAt⟩, h2⟩
        · rintro ⟨h1, h2⟩
          by_cases e : x = leaf
          · exact ⟨.inr e, h2⟩
          · exact ⟨.inl ⟨h1, e⟩, h2⟩
      · have hxl : x ≠ leaf := fun e => hx (e ▸ ⟨_, hleafAt⟩)
        rw [hframe x (fun hm => hx ((hmem x).mp hm).1) hxl, hframe1 x fun e => hx (e ▸ ⟨ρ, hp⟩)]

end Remove
end LinuxKernel.PrioTree
