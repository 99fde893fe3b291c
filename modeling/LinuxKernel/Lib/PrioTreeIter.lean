/-
  The stabbing query of a priority search tree (`lib/prio_tree.c`).

  1. **What is to be returned** — `below π` are the nodes of the subtree at `π` that overlap the query, in the
     order of the walk; `rest π` are those that come after this subtree.

  2. **The iterator** (`At`) — `mask`, `value` and `size_level` are functions of the path: `value` are
     the bits of the radix index that have been used so far.  Going down and climbing keep this; the `BUG_ON`s
     do not fire, because there is nothing below the depth at which both indices have been used up.

  3. **Pruning** — a subtree that is not entered has nothing to return: its heap indices are too small, or
     its radix indices are too large.

  4. **`prio_tree_first`** never turns back.  If the left child begins after the query, so does everything
     to the right of it.
-/
import LinuxKernel.Lib.PrioTreeExpand

namespace LinuxKernel.PrioTree

open List LinkedTree
variable {A : Arch} {ix : Ptr → Nat × Nat} {b : Nat} {T : Shape Ptr} {π ρ : Path} {s : Store}

/-! ## What is to be returned -/

/-- The query `[r, h]` overlaps the interval. -/
def Overlaps (r h : Nat) (x : Nat × Nat) : Prop := x.1 ≤ h ∧ r ≤ x.2

instance (r h : Nat) (x : Nat × Nat) : Decidable (Overlaps r h x) := instDecidableAnd

/-- The nodes of the subtree at `π` that overlap the query, as far as `n` levels down. -/
def overlapping (ix : Ptr → Nat × Nat) (T : Shape Ptr) (r h : Nat) : Nat → Path → List Ptr
  | 0, _ => []
  | n + 1, π =>
    match T π with
    | none => []
    | some p => (if Overlaps r h (ix p) then [p] else []) ++
        (overlapping ix T r h n (false :: π) ++ overlapping ix T r h n (true :: π))

/-- All nodes of the subtree at `π` that overlap the query. -/
def below (A : Arch) (ix : Ptr → Nat × Nat) (b : Nat) (T : Shape Ptr) (r h : Nat) (π : Path) : List Ptr :=
  overlapping ix T r h (b + A.bitsPerLong + 1 - π.length) π

variable {r h : Nat}

theorem below_none (hπ : T π = none) : below A ix b T r h π = [] := by
  unfold below
  cases b + A.bitsPerLong + 1 - π.length with
  | zero => rfl
  | succ n => rw [overlapping, hπ]

variable {p : Ptr}

theorem below_some (hT : Pst A ix b T) (hb : b ≤ A.bitsPerLong) (hp : T π = some p) :
    below A ix b T r h π = (if Overlaps r h (ix p) then [p] else []) ++
      (below A ix b T r h (false :: π) ++ below A ix b T r h (true :: π)) := by
  have hlen := hT.length_le hb hp
  unfold below
  rw [show b + A.bitsPerLong + 1 - π.length = b + A.bitsPerLong - π.length + 1 by omega, overlapping, hp]
  simp

variable {x : Ptr}

theorem mem_overlapping (n : Nat) : ∀ π : Path, x ∈ overlapping ix T r h n π →
    ∃ σ, T (σ ++ π) = some x ∧ Overlaps r h (ix x) := by
  induction n with
  | zero => nofun
  | succ n ih =>
    intro π hx
    rw [overlapping] at hx
    cases hp : T π with
    | none => rw [hp] at hx; nomatch hx
    | some p =>
      rw [hp] at hx
      rcases mem_append.mp hx with hx | hx
      · split at hx
        · rename_i ho
          rw [mem_singleton.mp hx]
          exact ⟨[], hp, ho⟩
        · nomatch hx
      · rcases mem_append.mp hx with hx | hx
        · obtain ⟨σ, hσ, ho⟩ := ih _ hx
          exact ⟨σ ++ [false], by rwa [append_assoc], ho⟩
        · obtain ⟨σ, hσ, ho⟩ := ih _ hx
          exact ⟨σ ++ [true], by rwa [append_assoc], ho⟩

/-- Nothing is missing. -/
theorem mem_below_of (hT : Pst A ix b T) (hb : b ≤ A.bitsPerLong) (ho : Overlaps r h (ix x)) (n : Nat) :
    ∀ (σ π : Path), σ.length = n → T (σ ++ π) = some x → x ∈ below A ix b T r h π := by
  induction n with
  | zero =>
    intro σ π hlen hx
    rw [length_eq_zero_iff.mp hlen, nil_append] at hx
    rw [below_some hT hb hx, if_pos ho]
    exact mem_append_left _ (mem_singleton_self x)
  | succ n ih =>
    intro σ π hlen hx
    obtain ⟨σ', c, rfl⟩ : ∃ σ' c, σ = σ' ++ [c] := by
      rcases eq_nil_or_concat σ with rfl | ⟨σ', c, rfl⟩
      · nomatch hlen
      · exact ⟨σ', c, concat_eq_append ..⟩
    rw [append_assoc] at hx
    have hlen' : σ'.length = n := by simpa using hlen
    -- the nodes on the way exist
    have hex : ∀ τ : Path, (∃ y, T (τ ++ π) = some y) → ∃ y, T π = some y := by
      intro τ
      induction τ with
      | nil => exact id
      | cons d τ ihτ => rintro ⟨y, hy⟩; exact ihτ (hT.closed d _ y hy)
    obtain ⟨p, hp⟩ := hex (σ' ++ [c]) ⟨x, by rwa [append_assoc]⟩
    have hmem := ih σ' (c :: π) hlen' hx
    rw [below_some hT hb hp]
    refine mem_append_right _ (mem_append.mpr ?_)
    cases c
    · exact .inl hmem
    · exact .inr hmem

theorem mem_below (hT : Pst A ix b T) (hb : b ≤ A.bitsPerLong) :
    x ∈ below A ix b T r h π ↔ ∃ σ, T (σ ++ π) = some x ∧ Overlaps r h (ix x) :=
  ⟨mem_overlapping _ π, fun ⟨σ, hσ, ho⟩ => mem_below_of hT hb ho _ σ π rfl hσ⟩

variable {σ τ : Path} {c : Bool}

/-- Two nodes below different turns are different. -/
theorem ne_of_turn {v : View Ptr} (hv : Holds v T) {y : Ptr} {d : Bool} (hcd : c ≠ d)
    (hx : T (σ ++ c :: π) = some x) (hy : T (τ ++ d :: π) = some y) : x ≠ y := by
  rintro rfl
  have he := hv.inj _ _ x hx hy
  have hlen := congrArg List.length he
  simp only [length_append, length_cons] at hlen
  exact hcd (List.cons.inj (append_inj_right he (by omega))).1

theorem nodup_overlapping {v : View Ptr} (hv : Holds v T) (n : Nat) : ∀ (π : Path),
    (overlapping ix T r h n π).Nodup := by
  induction n with
  | zero => intro π; exact nodup_nil
  | succ n ih =>
    intro π
    rw [overlapping]
    cases hp : T π with
    | none => exact nodup_nil
    | some p =>
      have hne : ∀ (c : Bool) (y : Ptr), y ∈ overlapping ix T r h n (c :: π) → y ≠ p := by
        rintro c y hy rfl
        obtain ⟨σ, hσ, _⟩ := mem_overlapping n _ hy
        have := congrArg List.length (hv.inj _ _ y hσ hp)
        simp only [length_append, length_cons] at this
        omega
      refine nodup_append.mpr ⟨?_, nodup_append.mpr ⟨ih _, ih _, fun x hx y hy => ?_⟩, fun x hx y hy => ?_⟩
      · split
        · exact nodup_cons.mpr ⟨not_mem_nil, nodup_nil⟩
        · exact nodup_nil
      · obtain ⟨σ, hσ, _⟩ := mem_overlapping n _ hx
        obtain ⟨τ, hτ, _⟩ := mem_overlapping n _ hy
        exact ne_of_turn hv Bool.false_ne_true hσ hτ
      · split at hx
        · rw [mem_singleton.mp hx]
          rcases mem_append.mp hy with hy | hy
          · exact (hne _ y hy).symm
          · exact (hne _ y hy).symm
        · nomatch hx

/-- What comes after the subtree at `π`. -/
def rest (A : Arch) (ix : Ptr → Nat × Nat) (b : Nat) (T : Shape Ptr) (r h : Nat) : Path → List Ptr
  | [] => []
  | false :: π => below A ix b T r h (true :: π) ++ rest A ix b T r h π
  | true :: π => rest A ix b T r h π

/-! ## The bits that have been used -/

variable {q : Ptr}

/-- Every node below `π` takes the turns of `π`. -/
theorem Pst.turns (hT : Pst A ix b T) (hq : T (σ ++ π) = some q) : π = pathOf A b (ix q) π.length := by
  have hplaced := hT.placed _ q hq
  obtain ⟨σ', hσ', hlen⟩ := pathOf_add (A := A) (b := b) (ix q) π.length σ.length
  rw [length_append, hσ'] at hplaced
  exact append_inj_right hplaced hlen.symm

theorem Pst.turn (hT : Pst A ix b T) (hq : T (σ ++ c :: π) = some q) : dirAt A b (ix q) π.length = c := by
  have := hT.turns hq
  rw [length_cons, pathOf, List.cons.injEq] at this
  exact this.1.symm

/-- The radix indices of two nodes below `π` agree in the bits that have been used. -/
theorem Pst.agree (hT : Pst A ix b T) (hp : T (σ ++ π) = some p)
    (hq : T (τ ++ π) = some q) {i : Nat} (hi : b - π.length ≤ i) :
    (ix p).1.testBit i = (ix q).1.testBit i := by
  have hsame := (pathOf_eq_iff _).mp ((hT.turns hp).symm.trans (hT.turns hq)) (b - 1 - i)
  exact testBit_radix (hT.fits _ p hp) (hT.fits _ q hq) fun _ => hsame (by omega)

/-- A node to the left begins no later than a node to the right. -/
theorem Pst.radix_le (hT : Pst A ix b T) (hp : T (σ ++ false :: π) = some p)
    (hq : T (τ ++ true :: π) = some q) : (ix p).1 ≤ (ix q).1 := by
  have hagree : ∀ i, b - π.length ≤ i → (ix p).1.testBit i = (ix q).1.testBit i := fun i hi =>
    hT.agree (π := π) (σ := σ ++ [false]) (τ := τ ++ [true]) (by rwa [append_assoc])
      (by rwa [append_assoc]) hi
  by_cases hd : π.length < b
  · have hbp := hT.turn hp
    have hbq := hT.turn hq
    rw [dirAt, if_pos hd] at hbp hbq
    exact Nat.le_of_lt (Nat.lt_of_testBit _ hbp hbq fun j hj => hagree j (by omega))
  · exact Nat.le_of_eq (Nat.eq_of_testBit_eq fun i => hagree i (by omega))

/-- The bits of the radix index that have been used down to depth `d`. -/
def used (b : Nat) (x : Nat × Nat) (d : Nat) : Nat := x.1 >>> (b - d) <<< (b - d)

theorem testBit_used (x : Nat × Nat) (d i : Nat) :
    (used b x d).testBit i = (decide (b - d ≤ i) && x.1.testBit i) := by
  rw [used, Nat.testBit_shiftLeft, Nat.testBit_shiftRight]
  by_cases hi : b - d ≤ i
  · rw [show b - d + (i - (b - d)) = i by omega]
  · rw [decide_eq_false hi]
    rfl

theorem used_le (x : Nat × Nat) (d : Nat) : used b x d ≤ x.1 := by
  rw [used, Nat.shiftLeft_eq, Nat.shiftRight_eq_div_pow]
  exact Nat.div_mul_le_self ..

/-- One level down: a right turn sets the next bit. -/
theorem Pst.used_child (hT : Pst A ix b T) (hp : T π = some p)
    (hq : T (c :: π) = some q) (hd : π.length < b) : used b (ix q) (π.length + 1) =
      if c then used b (ix p) π.length ||| 2 ^ (b - 1 - π.length) else used b (ix p) π.length := by
  have hbq := hT.turn (σ := []) hq
  rw [dirAt, if_pos hd] at hbq
  refine Nat.eq_of_testBit_eq fun i => ?_
  have hagree : b - π.length ≤ i → (ix p).1.testBit i = (ix q).1.testBit i := fun hi =>
    hT.agree (σ := []) (τ := [c]) hp hq hi
  rw [testBit_used]
  by_cases hi : i = b - 1 - π.length
  · -- the bit of this turn
    subst hi
    rw [decide_eq_true (by omega), hbq, Bool.true_and]
    cases c with
    | true => rw [if_pos rfl, Nat.testBit_or, Nat.testBit_two_pow_self, Bool.or_true]
    | false =>
      rw [if_neg Bool.false_ne_true, testBit_used, decide_eq_false (by omega), Bool.false_and]
  · have hpow : (2 ^ (b - 1 - π.length)).testBit i = false := Nat.testBit_two_pow_of_ne (Ne.symm hi)
    have hrest : (if c then used b (ix p) π.length ||| 2 ^ (b - 1 - π.length) else used b
      (ix p) π.length).testBit i
        = (used b (ix p) π.length).testBit i := by
      cases c
      · rfl
      · rw [if_pos rfl, Nat.testBit_or, hpow, Bool.or_false]
    rw [hrest, testBit_used]
    by_cases hge : b - π.length ≤ i
    · rw [hagree hge, decide_eq_true hge, decide_eq_true (by omega)]
    · rw [decide_eq_false hge, decide_eq_false (by omega)]
      rfl

/-- Below the bits of the radix index nothing changes. -/
theorem Pst.used_size (hT : Pst A ix b T) (hp : T π = some p)
    (hq : T (c :: π) = some q) (hd : b ≤ π.length) :
    used b (ix q) (π.length + 1) = used b (ix p) π.length := by
  refine Nat.eq_of_testBit_eq fun i => ?_
  rw [testBit_used, testBit_used, hT.agree (σ := []) (τ := [c]) hp hq (show b - π.length ≤ i by omega),
    decide_eq_true (by omega), decide_eq_true (by omega)]

/-! ## The iterator -/

/-- The mask at depth `d`. -/
def iterMask (A : Arch) (b d : Nat) : Nat :=
    if d < b + A.bitsPerLong then maskAt A b d else 2 ^ A.bitsPerLong - 1
def iterLevel (b d : Nat) : Nat := if d < b then 0 else d - b + 1

/-- The iterator is at the node with this path. -/
structure At (A : Arch) (ix : Ptr → Nat × Nat) (b : Nat) (T : Shape Ptr) (r h : Nat) (π : Path) (it : Iter) :
    Prop where
  cur : T π = some it.cur
  query : it.rIndex = r ∧ it.hIndex = h
  mask : it.mask = iterMask A b π.length
  level : it.sizeLevel = iterLevel b π.length
  value : it.value = used b (ix it.cur) π.length

variable {it : Iter}

section
variable (hs : Stored s T) (hT : Pst A ix b T) (hb : b ≤ A.bitsPerLong)
include hs hT hb

/-- One level down. -/
theorem stepDown_at (hit : At A ix b T r h π it)
    (hq : T (c :: π) = some q) {v : Nat} (hv : v = used b (ix q) (π.length + 1)) :
    ∃ it', stepDown A s { it with value := v } q = some it' ∧ At A ix b T r h (c :: π) it' := by
  have hlen := hT.length_le hb hq
  rw [length_cons] at hlen
  have hmask := hit.mask
  have hlevel := hit.level
  rw [iterMask, if_pos (by omega), maskAt] at hmask
  unfold iterLevel at hlevel
  -- the new mask and level, in each of the phases
  have hat : ∀ m k, m = iterMask A b (π.length + 1) → k = iterLevel b (π.length + 1) →
      At A ix b T r h (c :: π) { it with value := v, cur := q, mask := m, sizeLevel := k } := fun m k hm hk =>
    ⟨hq, hit.query, hm, hk, hv⟩
  unfold stepDown
  by_cases h1 : π.length < b
  · rw [if_pos h1] at hmask hlevel
    by_cases h2 : π.length + 1 < b
    · obtain ⟨e, hne⟩ := two_pow_half (show 0 < b - 1 - π.length by omega)
      rw [hmask, if_pos hne, hlevel, if_neg (by omega)]
      refine ⟨_, rfl, hat _ _ ?_ ?_⟩
      · rw [iterMask, if_pos (by omega), maskAt, if_pos h2, e,
          show b - 1 - π.length - 1 = b - 1 - (π.length + 1) by omega]
      · rw [iterLevel, if_pos h2]
    · rw [hmask, show b - 1 - π.length = 0 by omega, if_neg (by decide), hlevel, if_neg (by omega)]
      refine ⟨_, rfl, hat _ _ ?_ ?_⟩
      · rw [iterMask, if_pos (by omega), maskAt, if_neg h2, show π.length + 1 - b = 0 by omega, Nat.sub_zero]
      · rw [iterLevel, if_neg h2, show π.length + 1 - b = 0 by omega]
  · rw [if_neg h1] at hmask hlevel
    by_cases h2 : π.length + 1 < b + A.bitsPerLong
    · obtain ⟨e, hne⟩ := two_pow_half (show 0 < A.bitsPerLong - 1 - (π.length - b) by omega)
      rw [hmask, if_pos hne, hlevel, if_pos (by omega)]
      refine ⟨_, rfl, hat _ _ ?_ ?_⟩
      · rw [iterMask, if_pos h2, maskAt, if_neg (by omega), e,
          show A.bitsPerLong - 1 - (π.length - b) - 1 = A.bitsPerLong - 1 - (π.length + 1 - b) by omega]
      · rw [iterLevel, if_neg (by omega), show π.length + 1 - b = π.length - b + 1 by omega]
    · -- both indices have been used up, so this is a leaf
      have hleaf : ∀ d : Bool, T (d :: c :: π) = none := by
        intro d
        cases hd : T (d :: c :: π) with
        | none => rfl
        | some y =>
          have := hT.length_le hb hd
          simp only [length_cons] at this
          omega
      rw [hmask, show A.bitsPerLong - 1 - (π.length - b) = 0 by omega, if_neg (by decide), hlevel,
        if_pos (by omega),
        (hs.leftEmpty_iff hq).mpr (hleaf false), (hs.rightEmpty_iff hq).mpr (hleaf true)]
      refine ⟨_, rfl, hat _ _ ?_ ?_⟩
      · rw [iterMask, if_neg (by omega)]
      · rw [iterLevel, if_neg (by omega), show π.length + 1 - b = π.length - b + 1 by omega]

omit hs hT hb in
theorem two_pow_ne_max {k : Nat} (hk : k < A.bitsPerLong) : 2 ^ k ≠ 2 ^ A.bitsPerLong - 1 := by
  have hwide := A.wide
  have h1 : 2 ^ A.bitsPerLong = 4 * 2 ^ (A.bitsPerLong - 2) := by
    rw [show (4 : Nat) = 2 ^ 2 by decide, ← Nat.pow_add]
    congr 1
    omega
  have h2 := Nat.two_pow_pos (A.bitsPerLong - 2)
  cases k with
  | zero => rw [Nat.pow_zero]; omega
  | succ k =>
    omega

omit hs hT hb in
theorem two_pow_double {k : Nat} (hk : k + 1 < A.bitsPerLong) :
    2 ^ k * 2 % 2 ^ A.bitsPerLong = 2 ^ (k + 1) := by
  rw [← Nat.pow_succ]
  exact Nat.mod_eq_of_lt (Nat.pow_lt_pow_right (by omega) hk)

omit hs hT hb in
/-- The mask one level up. -/
theorem parent_mask {d level mask : Nat} (hb : b ≤ A.bitsPerLong) (hd : d + 1 ≤ b + A.bitsPerLong)
    (hm : mask = iterMask A b (d + 1)) (hl : level = iterLevel b (d + 1)) :
    (if mask = 2 ^ A.bitsPerLong - 1 then 1 else if level = 1 then 1 else mask * 2 % 2 ^ A.bitsPerLong) =
      maskAt A b d := by
  unfold iterMask at hm
  unfold iterLevel at hl
  by_cases hmax : d + 1 < b + A.bitsPerLong
  · rw [if_pos hmax, maskAt] at hm
    by_cases h1 : d + 1 < b
    · rw [if_pos h1] at hm hl
      rw [hm, if_neg (two_pow_ne_max (by omega)), hl, if_neg (by omega), two_pow_double (by omega), maskAt,
        if_pos (by omega), show b - 1 - (d + 1) + 1 = b - 1 - d by omega]
    · rw [if_neg h1] at hm hl
      rw [hm, if_neg (two_pow_ne_max (by omega)), hl, maskAt]
      by_cases h2 : d < b
      · rw [if_pos (by omega), if_pos h2, show b - 1 - d = 0 by omega]
        rfl
      · rw [if_neg (by omega), if_neg h2, two_pow_double (by omega),
          show A.bitsPerLong - 1 - (d + 1 - b) + 1 = A.bitsPerLong - 1 - (d - b) by omega]
  · rw [if_neg hmax] at hm
    rw [hm, if_pos rfl, maskAt, if_neg (by omega), show A.bitsPerLong - 1 - (d - b) = 0 by omega]
    rfl

/-- One level up. -/
theorem prioTreeParent_at (hit : At A ix b T r h (c :: π) it) :
    At A ix b T r h π (prioTreeParent A s it) := by
  obtain ⟨p, hp⟩ := hT.closed c π it.cur hit.cur
  have hpar : (s.node it.cur).parent = p :=
    (Store.parent_eq_some.mp ((hs.links.parent _ _ hit.cur).trans hp)).1
  have hlen := hT.length_le hb hit.cur
  have hmask := hit.mask
  have hlevel := hit.level
  have hvalue := hit.value
  rw [length_cons] at hlen hmask hlevel hvalue
  have hm := parent_mask hb hlen hmask hlevel
  have hl : it.sizeLevel - 1 = iterLevel b π.length := by
    rw [hlevel]
    unfold iterLevel
    by_cases h1 : π.length + 1 < b
    · rw [if_pos h1, if_pos (by omega)]
    · rw [if_neg h1]
      by_cases h2 : π.length < b
      · rw [if_pos h2]; omega
      · rw [if_neg h2]; omega
  unfold prioTreeParent
  simp only [hm, hpar]
  refine ⟨hp, hit.query, ?_, hl, ?_⟩
  · show maskAt A b π.length = iterMask A b π.length
    rw [iterMask, if_pos (by omega)]
  · show (if it.sizeLevel - 1 = 0 ∧ it.value &&& maskAt A b π.length ≠ 0 then it.value ^^^ maskAt A b π.length
      else it.value) = used b (ix p) π.length
    rw [hl, hvalue]
    by_cases hd : π.length < b
    · have hchild := hT.used_child hp hit.cur hd
      have hclear : (used b (ix p) π.length).testBit (b - 1 - π.length) = false := by
        rw [testBit_used, decide_eq_false (by omega), Bool.false_and]
      rw [hchild, maskAt, if_pos hd]
      cases c with
      | true =>
        rw [if_pos rfl, if_pos]
        · refine Nat.eq_of_testBit_eq fun i => ?_
          rw [Nat.testBit_xor, Nat.testBit_or]
          by_cases hi : i = b - 1 - π.length
          · rw [hi, hclear, Nat.testBit_two_pow_self]; rfl
          · rw [Nat.testBit_two_pow_of_ne (Ne.symm hi), Bool.or_false, Bool.xor_false]
        · refine ⟨by rw [iterLevel, if_pos hd], ?_⟩
          rw [and_two_pow_ne_zero, Nat.testBit_or, Nat.testBit_two_pow_self, Bool.or_true]
      | false =>
        rw [if_neg Bool.false_ne_true, if_neg]
        rintro ⟨_, hne⟩
        rw [and_two_pow_ne_zero, hclear] at hne
        nomatch hne
    · rw [if_neg, hT.used_size hp hit.cur (by omega)]
      rintro ⟨h0, _⟩
      rw [iterLevel, if_neg hd] at h0
      omega

/-! ## Pruning -/

omit hs in
/-- A subtree whose top ends before the query has nothing to return. -/
theorem below_nil_of_heap (hq : T π = some q) (hlt : (ix q).2 < r) : below A ix b T r h π = [] := by
  refine eq_nil_iff_forall_not_mem.mpr fun x hx => ?_
  obtain ⟨σ, hσ, ho⟩ := (mem_below hT hb).mp hx
  have hle : (ix x).2 ≤ (ix q).2 := by
    by_cases hnil : σ = []
    · rw [hnil, nil_append, hq] at hσ
      rw [Option.some.inj hσ]
    · have := hT.above hq σ x hnil hσ
      unfold Above at this
      omega
  have := ho.2
  omega

omit hs in
/-- A subtree whose radix indices are all too large has nothing to return. -/
theorem below_nil_of_radix (hlt : ∀ σ x, T (σ ++ π) = some x → h < (ix x).1) : below A ix b T r h π = [] := by
  refine eq_nil_iff_forall_not_mem.mpr fun x hx => ?_
  obtain ⟨σ, hσ, ho⟩ := (mem_below hT hb).mp hx
  have := hlt σ x hσ
  have := ho.1
  omega

omit hs hT hb in
/-- Nodes below `π` have used the same bits. -/
theorem Pst.used_eq (hT : Pst A ix b T) (hp : T (σ ++ π) = some p)
    (hq : T (τ ++ π) = some q) : used b (ix p) π.length = used b (ix q) π.length := by
  refine Nat.eq_of_testBit_eq fun i => ?_
  rw [testBit_used, testBit_used]
  by_cases hi : b - π.length ≤ i
  · rw [hT.agree hp hq hi]
  · rw [decide_eq_false hi, Bool.false_and, Bool.false_and]

/-- `prio_tree_left` -/
theorem prioTreeLeft_at (hit : At A ix b T r h π it) :
    (prioTreeLeft A ix s it = some none ∧ below A ix b T r h (false :: π) = []) ∨
    ∃ it', prioTreeLeft A ix s it = some (some it') ∧ At A ix b T r h (false :: π) it' ∧
    r ≤ (ix it'.cur).2 := by
  have hempty := hs.leftEmpty_iff hit.cur
  unfold prioTreeLeft
  cases hq : T (false :: π) with
  | none =>
    rw [if_pos (hempty.mpr hq)]
    exact .inl ⟨rfl, below_none hq⟩
  | some q =>
    rw [if_neg (by rw [hempty, hq]; exact Option.some_ne_none q), (hs.left_eq hit.cur hq).1, hit.query.1]
    by_cases hr : r ≤ (ix q).2
    · rw [if_pos hr]
      have hv : it.value = used b (ix q) (π.length + 1) := by
        by_cases hd : π.length < b
        · rw [hit.value, hT.used_child hit.cur hq hd, if_neg Bool.false_ne_true]
        · rw [hit.value, hT.used_size hit.cur hq (by omega)]
      obtain ⟨it', he, hat⟩ := stepDown_at hs hT hb hit hq hv
      have hcur : it'.cur = q := Option.some.inj (hat.cur.symm.trans hq)
      exact .inr ⟨it', by rw [show it = { it with value := it.value } from rfl, he]; rfl, hat, by rwa [hcur]⟩
    · rw [if_neg hr]
      exact .inl ⟨rfl, below_nil_of_heap hT hb hq (by omega)⟩

/-- `prio_tree_right` -/
theorem prioTreeRight_at (hit : At A ix b T r h π it) :
    (prioTreeRight A ix s it = some none ∧ below A ix b T r h (true :: π) = []) ∨
    ∃ it', prioTreeRight A ix s it = some (some it') ∧ At A ix b T r h (true :: π) it' ∧
    r ≤ (ix it'.cur).2 := by
  have hempty := hs.rightEmpty_iff hit.cur
  unfold prioTreeRight
  cases hq : T (true :: π) with
  | none =>
    rw [if_pos (hempty.mpr hq)]
    exact .inl ⟨rfl, below_none hq⟩
  | some q =>
    have hlen := hT.length_le hb hq
    rw [length_cons] at hlen
    have hv : (if it.sizeLevel ≠ 0 then it.value else it.value ||| it.mask) = used b (ix q)
      (π.length + 1) := by
      rw [hit.level, hit.value, hit.mask, iterLevel, iterMask,
        if_pos (show π.length < b + A.bitsPerLong by omega), maskAt]
      by_cases hd : π.length < b
      · simp [hd, hT.used_child hit.cur hq hd]
      · simp [hd, hT.used_size hit.cur hq (by omega)]
    rw [if_neg (by rw [hempty, hq]; exact Option.some_ne_none q), (hs.right_eq hit.cur hq).1,
      hit.query.1, hit.query.2]
    simp only [hv]
    by_cases hh : h < used b (ix q) (π.length + 1)
    · rw [if_pos hh]
      refine .inl ⟨rfl, below_nil_of_radix hT hb fun σ x hx => hh.trans_le ?_⟩
      rw [← length_cons (a := true), hT.used_eq (σ := []) (τ := σ) hq hx]
      exact used_le _ _
    · rw [if_neg hh]
      by_cases hr : r ≤ (ix q).2
      · rw [if_pos hr]
        obtain ⟨it', he, hat⟩ := stepDown_at hs hT hb hit hq rfl
        have hcur : it'.cur = q := Option.some.inj (hat.cur.symm.trans hq)
        rw [hit.query.1, hit.query.2] at he
        exact .inr ⟨it', by rw [he]; rfl, hat, by rwa [hcur]⟩
      · rw [if_neg hr]
        exact .inl ⟨rfl, below_nil_of_heap hT hb hq (by omega)⟩

/-! ## `prio_tree_next` -/

/-- What is still to be returned, from the two places of the machine. -/
def after (A : Arch) (ix : Ptr → Nat × Nat) (b : Nat) (T : Shape Ptr) (r h : Nat) : Place → Path → List Ptr
  | .left, π => below A ix b T r h (false :: π) ++ (below A ix b T r h (true :: π) ++ rest A ix b T r h π)
  | .right, π => below A ix b T r h (true :: π) ++ rest A ix b T r h π

/-- The turns that the walk through a subtree with `k` more levels can take. -/
def walk : Nat → Nat
  | 0 => 4
  | k + 1 => 2 * walk k + 4

/-- The same, when only the right subtree is left. -/
def walkRight : Nat → Nat
  | 0 => 2
  | k + 1 => walk k + 2

/-- The turns after the subtree at `π`, in a tree of depth `D`. -/
def exitCost (D : Nat) : Path → Nat
  | [] => D + 3
  | false :: π => walkRight (D - π.length) + exitCost D π + 1
  | true :: π => exitCost D π + 1

def cost (D : Nat) : Place → Path → Nat
  | .left, π => walk (D - π.length) + exitCost D π
  | .right, π => walkRight (D - π.length) + exitCost D π

omit hs hT hb in
theorem walkRight_lt_walk (k : Nat) : walkRight k + 1 < walk k := by
  cases k with
  | zero => decide
  | succ k => rw [walk, walkRight]; omega

omit hs hT hb in
theorem exitCost_ge (D : Nat) : ∀ π : Path, D + 3 ≤ exitCost D π := by
  intro π
  induction π with
  | nil => exact le_rfl
  | cons c π ih =>
    cases c <;> rw [exitCost] <;> omega

/-- Climbing out of a subtree. -/
theorem climb_at (D : Nat) (π : Path) : ∀ (fuel : Nat) (it : Iter), At A ix b T r h π it → π.length < fuel →
    (climb A s fuel it = some none ∧ rest A ix b T r h π = []) ∨
    ∃ ρ it', climb A s fuel it = some (some it') ∧ At A ix b T r h ρ it' ∧
      rest A ix b T r h π = after A ix b T r h .right ρ ∧ cost D .right ρ < exitCost D π := by
  induction π with
  | nil =>
    intro fuel it hit hfuel
    obtain ⟨n, rfl⟩ : ∃ n, fuel = n + 1 := ⟨fuel - 1, by rw [length_nil] at hfuel; omega⟩
    have htop : s.isRoot it.cur = true :=
      Store.isRoot_iff.mpr (Store.parent_eq_none.mp (hs.links.parent [] _ hit.cur))
    rw [climb, if_pos htop]
    exact .inl ⟨rfl, rfl⟩
  | cons c π ih =>
    intro fuel it hit hfuel
    rw [length_cons] at hfuel
    obtain ⟨n, rfl⟩ : ∃ n, fuel = n + 1 := ⟨fuel - 1, by omega⟩
    obtain ⟨p, hp⟩ := hT.closed c π it.cur hit.cur
    obtain ⟨hpar, hne⟩ := Store.parent_eq_some.mp ((hs.links.parent _ _ hit.cur).trans hp)
    have hup := prioTreeParent_at hs hT hb hit
    rw [climb, if_neg (by rw [Store.isRoot_iff, hpar]; exact hne), hpar]
    cases c with
    | true =>
      rw [if_pos (hs.right_eq hp hit.cur).1]
      rcases ih n _ hup (by omega) with hnone | ⟨ρ, it', he, hat, hrest, hcost⟩
      · exact .inl hnone
      · exact .inr ⟨ρ, it', he, hat, hrest, by rw [exitCost]; omega⟩
    | false =>
      have hright : (s.node p).right ≠ it.cur := by
        intro hr
        have hlink : s.link p true = it.cur := hr
        have hmem := hs.mem_link (b := true) hp (by rw [hlink]; exact hne.symm)
        rw [hlink] at hmem
        exact nomatch (hs.links.inj _ _ _ hmem hit.cur)
      rw [if_neg hright]
      exact .inr ⟨π, _, rfl, hup, rfl, by rw [exitCost, cost]; omega⟩

omit hs hT hb in
theorem overlap_iff (hit : At A ix b T r h π it) : overlap ix it = true ↔ Overlaps r h (ix it.cur) := by
  rw [overlap, hit.query.1, hit.query.2, Bool.and_eq_true, decide_eq_true_iff, decide_eq_true_iff]
  exact Iff.rfl

omit hs in
/-- Going into a child. -/
theorem below_at (hit : At A ix b T r h π it) (l : List Ptr) :
    (overlap ix it = true → below A ix b T r h π ++ l = it.cur ::
      (below A ix b T r h (false :: π) ++ (below A ix b T r h (true :: π) ++ l))) ∧
    (¬ overlap ix it = true → below A ix b T r h π ++ l =
      below A ix b T r h (false :: π) ++ (below A ix b T r h (true :: π) ++ l)) := by
  rw [below_some hT hb hit.cur, overlap_iff hit]
  constructor
  · intro ho
    rw [if_pos ho, append_assoc, append_assoc]
    rfl
  · intro ho
    rw [if_neg ho, append_assoc, append_assoc]
    rfl

/-- The result of `prio_tree_next` when the nodes `l` come next: `NULL` if there is none, or the first
    of them, with the others after it and less than `c` to walk. -/
def Next (A : Arch) (ix : Ptr → Nat × Nat) (b : Nat) (T : Path → Option Ptr) (r h : Nat) (l : List Ptr)
    (c : Nat) (res : Option (Option Iter)) : Prop :=
  (res = some none ∧ l = []) ∨
  ∃ ρ it, res = some (some it) ∧ At A ix b T r h ρ it ∧ l = it.cur :: after A ix b T r h .left ρ ∧
    cost (b + A.bitsPerLong) .left ρ < c

omit hs hT hb in
theorem Next.mono {l : List Ptr} {c c' : Nat} {res : Option (Option Iter)} (hn : Next A ix b T r h l c res)
    (hc : c ≤ c') : Next A ix b T r h l c' res :=
  hn.imp_right fun ⟨ρ, it, he, hat, hl, hlt⟩ => ⟨ρ, it, he, hat, hl, hlt.trans_le hc⟩

/-- **`prio_tree_next`** returns the next node, or `NULL` if there is none. -/
theorem nextLoop_at (fuel : Nat) : ∀ (place : Place) (π : Path) (it : Iter), At A ix b T r h π it →
    cost (b + A.bitsPerLong) place π ≤ fuel →
    Next A ix b T r h (after A ix b T r h place π) (cost (b + A.bitsPerLong) place π)
      (nextLoop A ix s fuel place it) := by
  induction fuel with
  | zero =>
    intro place π it hit hcost
    have := exitCost_ge (b + A.bitsPerLong) π
    cases place <;> rw [cost] at hcost <;> omega
  | succ n ih =>
    intro place π it hit hcost
    have hge := exitCost_ge (b + A.bitsPerLong) π
    have hlen := hT.length_le hb hit.cur
    -- in a child: it is returned, or the walk goes on there
    have hchild : ∀ (c : Bool) (it' : Iter), At A ix b T r h (c :: π) it' →
        cost (b + A.bitsPerLong) .left (c :: π) < cost (b + A.bitsPerLong) place π →
        after A ix b T r h place π = below A ix b T r h (c :: π) ++ rest A ix b T r h (c :: π) →
        Next A ix b T r h (after A ix b T r h place π) (cost (b + A.bitsPerLong) place π)
          (if overlap ix it' then some (some it') else nextLoop A ix s n .left it') := by
      intro c it' hit' hlt hafter
      obtain ⟨hyes, hno⟩ := below_at hT hb hit' (rest A ix b T r h (c :: π))
      by_cases ho : overlap ix it' = true
      · rw [if_pos ho]
        exact .inr ⟨_, it', rfl, hit', by rw [hafter, hyes ho]; rfl, hlt⟩
      · rw [if_neg ho, hafter, hno ho]
        exact (ih .left _ it' hit' (by omega)).mono hlt.le
    -- the depth that is left below a node with a child
    have hdepth : ∀ (c : Bool) (it' : Iter), At A ix b T r h (c :: π) it' →
        ∃ k, b + A.bitsPerLong - π.length = k + 1 ∧ b + A.bitsPerLong - (c :: π).length = k := by
      intro c it' hit'
      have := hT.length_le hb hit'.cur
      rw [length_cons] at this ⊢
      exact ⟨b + A.bitsPerLong - (π.length + 1), by omega, rfl⟩
    cases place with
    | left =>
      rw [nextLoop]
      rcases prioTreeLeft_at hs hT hb hit with ⟨he, hnil⟩ | ⟨it', he, hit', _⟩
      · rw [he]
        have hw := walkRight_lt_walk (b + A.bitsPerLong - π.length)
        have hsame : after A ix b T r h .left π = after A ix b T r h .right π := by
          rw [after, hnil, nil_append]; rfl
        have hlt : cost (b + A.bitsPerLong) .right π < cost (b + A.bitsPerLong) .left π := by
          rw [cost, cost]; omega
        rw [hsame]
        exact (ih .right π it hit (by omega)).mono hlt.le
      · rw [he]
        refine hchild false it' hit' ?_ rfl
        obtain ⟨k, hk, hk'⟩ := hdepth false it' hit'
        rw [cost, cost, hk', exitCost, hk, walk, walkRight]
        omega
    | right =>
      rw [nextLoop]
      rcases prioTreeRight_at hs hT hb hit with ⟨he, hnil⟩ | ⟨it', he, hit', _⟩
      · rw [he]
        have hsame : after A ix b T r h .right π = rest A ix b T r h π := by
          rw [after, hnil, nil_append]
        have hcost' := hcost
        rw [cost] at hcost'
        rcases climb_at hs hT hb (b + A.bitsPerLong) π n it hit (by omega) with
          ⟨hc, hrest⟩ | ⟨ρ, it', hc, hat, hrest, hlt⟩
        · simp only [hc]
          exact .inl ⟨rfl, hsame.trans hrest⟩
        · simp only [hc]
          rw [hsame, hrest]
          have hlt' : cost (b + A.bitsPerLong) .right ρ < cost (b + A.bitsPerLong) .right π := by
            rw [cost.eq_2 _ π]; omega
          exact (ih .right ρ it' hat (by omega)).mono hlt'.le
      · rw [he]
        refine hchild true it' hit' ?_ rfl
        obtain ⟨k, hk, hk'⟩ := hdepth true it' hit'
        rw [cost, cost, hk', exitCost, hk, walkRight]
        omega

/-! ## `prio_tree_first` -/

omit hs in
/-- If the left child begins after the query, nothing comes after it. -/
theorem right_nil (hq : T (false :: π) = some q) (hlt : h < (ix q).1) : below A ix b T r h (true :: π) = [] :=
  below_nil_of_radix hT hb fun σ _ hx =>
    hlt.trans_le (hT.radix_le (σ := []) (τ := σ) hq hx)

/-- The loop of `prio_tree_first`: what comes after a node that does not overlap the query is not
    wanted. -/
theorem firstLoop_at (fuel : Nat) :
    ∀ (π : Path) (it : Iter), At A ix b T r h π it → b + A.bitsPerLong < π.length + fuel →
    below A ix b T r h [] = below A ix b T r h π ++ rest A ix b T r h π →
    (¬ overlap ix it = true → rest A ix b T r h π = []) →
    (firstLoop A ix s fuel it = some none ∧ below A ix b T r h [] = []) ∨
    ∃ ρ it', firstLoop A ix s fuel it = some (some it') ∧ At A ix b T r h ρ it' ∧
      below A ix b T r h [] = it'.cur :: after A ix b T r h .left ρ := by
  induction fuel with
  | zero =>
    intro π it hit hfuel
    have := hT.length_le hb hit.cur
    omega
  | succ n ih =>
    intro π it hit hfuel hall hrest
    obtain ⟨hyes, hno⟩ := below_at hT hb hit (rest A ix b T r h π)
    rw [firstLoop]
    by_cases ho : overlap ix it = true
    · rw [if_pos ho]
      exact .inr ⟨π, it, rfl, hit, hall.trans (hyes ho)⟩
    · rw [if_neg ho]
      have hnil := hrest ho
      have hall' : below A ix b T r h [] = below A ix b T r h (false :: π) ++ below A ix b T r h
        (true :: π) := by
        rw [hall, hno ho, hnil, append_nil]
      rcases prioTreeLeft_at hs hT hb hit with ⟨hl, hlnil⟩ | ⟨it', hl, hit', hr⟩
      · rw [hl]
        rcases prioTreeRight_at hs hT hb hit with ⟨hrt, hrnil⟩ | ⟨it', hrt, hit', hr⟩
        · rw [hrt]
          exact .inl ⟨rfl, by rw [hall', hlnil, hrnil]; rfl⟩
        · rw [hrt]
          refine ih (true :: π) it' hit' (by rw [length_cons]; omega) ?_ fun _ => hnil
          rw [hall', hlnil, rest, hnil, append_nil, nil_append]
      · rw [hl]
        refine ih (false :: π) it' hit' (by rw [length_cons]; omega) ?_ fun ho' => ?_
        · rw [hall', rest, hnil, append_nil]
        · rw [overlap_iff hit'] at ho'
          have hlt : h < (ix it'.cur).1 := by
            unfold Overlaps at ho'
            omega
          rw [rest, hnil, append_nil]
          exact right_nil hT hb hit'.cur hlt

/-! ## The whole iteration -/

omit hs hT hb in
theorem cost_le {D : Nat} : ∀ π : Path, π.length ≤ D → cost D .left π ≤ cost D .left [] := by
  intro π
  induction π with
  | nil => intro _; exact le_rfl
  | cons c π ih =>
    intro hlen
    rw [length_cons] at hlen
    refine Nat.le_trans ?_ (ih (by omega))
    rw [cost, cost, length_cons]
    obtain ⟨k, hk, hk'⟩ : ∃ k, D - π.length = k + 1 ∧ D - (π.length + 1) = k :=
      ⟨D - (π.length + 1), by omega, rfl⟩
    rw [hk', hk, walk]
    cases c with
    | false => rw [exitCost, hk, walkRight]; omega
    | true => rw [exitCost]; omega

/-- `prio_tree_next` until it returns `NULL`. -/
theorem iterateFrom_at {fuel : Nat} (n : Nat) :
    ∀ (π : Path) (it : Iter), At A ix b T r h π it → cost (b + A.bitsPerLong) .left π ≤ fuel →
    cost (b + A.bitsPerLong) .left π < n →
    iterateFrom A ix s fuel n (some (some it)) = some (it.cur :: after A ix b T r h .left π) := by
  induction n with
  | zero => intro π it hit hfuel hn; omega
  | succ n ih =>
    intro π it hit hfuel hn
    rw [iterateFrom]
    rcases nextLoop_at hs hT hb fuel .left π it hit hfuel with ⟨he, hnil⟩ | ⟨ρ, it', he, hat, hafter, hcost⟩
    · rw [he, hnil, iterateFrom]
      rfl
    · rw [he, hafter, ih ρ it' hat (by omega) (by omega)]
      rfl

end

/-- The turns that are enough for any query. -/
def queryTurns (A : Arch) (b : Nat) : Nat := cost (b + A.bitsPerLong) .left [] + 1

/-- **The stabbing query** returns the nodes that overlap it, in the order of the walk. -/
theorem iterate_eq (hs : Stored s T) (hT : Pst A ix s.root.indexBits T) (hpos : 1 ≤ s.root.indexBits)
    (hb : s.root.indexBits ≤ A.bitsPerLong) (r h : Nat) {fuel : Nat}
    (hfuel : queryTurns A s.root.indexBits ≤ fuel) :
    iterate A ix s fuel r h = some (below A ix s.root.indexBits T r h []) := by
  unfold iterate prioTreeFirst
  rw [hs.top]
  cases htop : T [] with
  | none => rw [below_none htop, iterateFrom]
  | some top =>
    simp only
    by_cases hr : r > (ix top).2
    · rw [if_pos hr, below_nil_of_heap hT hb htop hr, iterateFrom]
    · rw [if_neg hr]
      have hfit := hT.fits [] top htop
      have hit : At A ix s.root.indexBits T r h [] ⟨top, 2 ^ (s.root.indexBits - 1), 0, 0, r, h⟩ := by
        refine ⟨htop, ⟨rfl, rfl⟩, ?_, ?_, ?_⟩
        · show 2 ^ (s.root.indexBits - 1) = iterMask A s.root.indexBits 0
          rw [iterMask, if_pos (by omega), maskAt, if_pos (by omega), Nat.sub_zero]
        · show 0 = iterLevel s.root.indexBits 0
          rw [iterLevel, if_pos (by omega)]
        · show 0 = used s.root.indexBits (ix top) 0
          rw [used, Nat.sub_zero, Nat.shiftRight_eq_div_pow,
            Nat.div_eq_of_lt (by have := hfit.1; have := hfit.2; omega),
            Nat.zero_shiftLeft]
      have hge := exitCost_ge (s.root.indexBits + A.bitsPerLong) []
      have hturns : cost (s.root.indexBits + A.bitsPerLong) .left [] + 1 ≤ fuel := hfuel
      have hcost : cost (s.root.indexBits + A.bitsPerLong) .left [] =
        walk (s.root.indexBits + A.bitsPerLong - 0) + exitCost (s.root.indexBits + A.bitsPerLong) [] := rfl
      rcases firstLoop_at hs hT hb fuel [] _ hit (by rw [length_nil]; omega)
        (by rw [rest, append_nil]) (fun _ => rfl) with ⟨he, hnil⟩ | ⟨ρ, it', he, hat, hall⟩
      · rw [he, hnil, iterateFrom]
      · have hle := cost_le ρ (hT.length_le hb hat.cur)
        rw [he, hall, iterateFrom_at hs hT hb fuel ρ it' hat (by omega) (by omega)]

end LinuxKernel.PrioTree
