/-
  Radix trees over the digits of an index, with a hole.

  An index below `M ^ H` is written with `H` digits in base `M`; a tree of height `H` is walked by them
  from the top.  A node carries data of any type `μ` beside its slots.

  1. **Holes** — code that walks down such a tree and remembers the nodes it passed holds a `path`, the
     innermost node first, and what sits in the slot it has reached.  `plug` writes the slot back into
     the nodes of the path: the tree as a whole while the walk is somewhere inside.

  2. **Reading** — `read` is what the tree says about an index: the `cell` of the lowest node's slot.
     Work at the hole changes it exactly for the indices that go through the hole (`read_plug_covers`,
     `read_plug_other`).

  3. **Shape** — a node keeps in its parent some data `β` about itself.  A `Shape` says what a node's
     own data has to be, given that and which of its slots are occupied; `Ok` is a tree where it holds
     everywhere, and `Around` the same for a path without its hole.  `ok_plug`, `Around.push` and
     `Around.pop` move between the two.
-/
import Mathlib

namespace LinuxKernel.Trie

open Function List

/-! ## Digits -/

/-- Digit `h` of `i` in base `M`. -/
def digit (M h i : Nat) : Nat := i / M ^ h % M

variable {M : Nat}

theorem digit_lt (hM : 0 < M) (h i : Nat) : digit M h i < M := Nat.mod_lt _ hM

/-- Two indices agree from digit `h` on when they agree there and above. -/
theorem div_pow_eq_iff (h i j : Nat) :
    i / M ^ h = j / M ^ h ↔ digit M h i = digit M h j ∧ i / M ^ (h + 1) = j / M ^ (h + 1) := by
  have hi := Nat.div_add_mod (i / M ^ h) M
  have hj := Nat.div_add_mod (j / M ^ h) M
  rw [Nat.div_div_eq_div_mul, ← pow_succ] at hi hj
  constructor
  · intro hij
    refine ⟨by rw [digit, digit, hij], ?_⟩
    rw [pow_succ, ← Nat.div_div_eq_div_mul, ← Nat.div_div_eq_div_mul, hij]
  · rintro ⟨hd, hq⟩
    rw [digit, digit] at hd
    rw [← hi, ← hj, hd, hq]

variable {k h : Nat}

/-- Below digit `h` the upper digits of an index do not show. -/
theorem digit_add_mul_pow (hk : k < h) (o i : Nat) : digit M k (o * M ^ h + i) = digit M k i := by
  rcases Nat.eq_zero_or_pos M with rfl | hM
  · simp [digit, Nat.zero_pow (by omega : 0 < h)]
  obtain ⟨d, rfl⟩ : ∃ d, h = k + 1 + d := ⟨h - (k + 1), by omega⟩
  have hpow : o * M ^ (k + 1 + d) = M ^ k * (M * (o * M ^ d)) := by rw [pow_add, pow_add]; ring
  rw [digit, digit, hpow, Nat.mul_add_div (Nat.pow_pos hM), Nat.mul_add_mod]

variable {o i : Nat}

theorem digit_top (hM : 0 < M) (ho : o < M) (hi : i < M ^ h) : digit M h (o * M ^ h + i) = o := by
  rw [digit, Nat.add_comm, Nat.add_mul_div_right _ _ (Nat.pow_pos hM), Nat.div_eq_of_lt hi,
    Nat.zero_add, Nat.mod_eq_of_lt ho]

/-- The top digit. -/
theorem digit_eq_div (hi : i < M ^ (h + 1)) : digit M h i = i / M ^ h :=
  Nat.mod_eq_of_lt (Nat.div_lt_of_lt_mul (by rw [← pow_succ]; exact hi))

/-! ## Trees and holes -/

inductive DigitTree (μ α : Type) where
  | null
  | item (a : α)
  | node (data : μ) (slots : Nat → DigitTree μ α)

variable {μ α β γ : Type}

def DigitTree.isNull : DigitTree μ α → Bool
  | .null => true
  | _ => false

@[simp] theorem isNull_iff {e : DigitTree μ α} : e.isNull = true ↔ e = .null := by
  cases e <;> simp [DigitTree.isNull]

theorem node_ne_null (m : μ) (slots : Nat → DigitTree μ α) : DigitTree.node m slots ≠ .null := nofun

/-- A node on the way to the hole, and the slot through which the way goes on. -/
structure Frame (μ α : Type) where
  data : μ
  slots : Nat → DigitTree μ α
  offset : Nat

/-- The node of a frame, with `e` in the slot. -/
def Frame.fill (f : Frame μ α) (e : DigitTree μ α) : DigitTree μ α :=
  .node f.data (update f.slots f.offset e)

/-- The whole tree: `e` in the hole of `path`. -/
def plug : List (Frame μ α) → DigitTree μ α → DigitTree μ α
  | [], e => e
  | f :: path, e => plug path (f.fill e)

@[simp] theorem plug_nil (e : DigitTree μ α) : plug [] e = e := rfl

@[simp] theorem plug_cons (f : Frame μ α) (path : List (Frame μ α)) (e : DigitTree μ α) :
    plug (f :: path) e = plug path (f.fill e) := rfl

theorem plug_ne_null {path : List (Frame μ α)} : ∀ {e : DigitTree μ α}, e ≠ .null → plug path e ≠ .null := by
  induction path with
  | nil => intro e he; exact he
  | cons f path ih => intro e _; exact ih (node_ne_null f.data _)

/-- Walking one level down changes nothing. -/
theorem plug_push (m : μ) (slots : Nat → DigitTree μ α) (o : Nat) (path : List (Frame μ α)) :
    plug (⟨m, slots, o⟩ :: path) (slots o) = plug path (.node m slots) := by
  rw [plug_cons, Frame.fill, update_eq_self]

/-! ## Reading -/

section Read
variable (M : Nat) (cell : μ → Nat → DigitTree μ α → γ) (missing : γ)

/-- What a tree of height `h` says about index `i`; `c` is what is known of it from above. -/
def read : Nat → γ → DigitTree μ α → Nat → γ
  | 0, c, _, _ => c
  | _ + 1, _, .null, _ => missing
  | _ + 1, _, .item _, _ => missing
  | h + 1, _, .node m slots, i =>
      read h (cell m (digit M h i) (slots (digit M h i))) (slots (digit M h i)) i

/-- Index `i` goes through the hole of `path`, which is at height `h`. -/
def Covers : Nat → List (Frame μ α) → Nat → Prop
  | _, [], _ => True
  | h, f :: path, i => digit M h i = f.offset ∧ Covers (h + 1) path i

/-- What is known from above of a slot that holds `e`. -/
def cellAt (c : γ) : List (Frame μ α) → DigitTree μ α → γ
  | [], _ => c
  | f :: _, e => cell f.data f.offset e

variable {i : Nat}

/-- Only the digits below the height matter. -/
theorem read_congr {j : Nat} (h : Nat) : ∀ (c : γ) (e : DigitTree μ α),
    (∀ k, k < h → digit M k i = digit M k j) → read M cell missing h c e i = read M cell missing h c e j := by
  induction h with
  | zero => intro c e _; rfl
  | succ h ih =>
    intro c e hd
    cases e with
    | null => rfl
    | item a => rfl
    | node m slots =>
      simp only [read]
      rw [hd h (Nat.lt_succ_self h)]
      exact ih _ _ fun k hk => hd k (Nat.lt_succ_of_lt hk)

variable {M}

theorem add_length_cons {β : Type*} (h : Nat) (f : β) (path : List β) :
    h + (f :: path).length = h + 1 + path.length := by
  rw [length_cons]
  omega

/-- **Through the hole**, the tree says what the hole's content says. -/
theorem read_plug_covers (c : γ) (path : List (Frame μ α)) :
    ∀ (h : Nat) (e : DigitTree μ α), Covers M h path i →
    read M cell missing (h + path.length) c (plug path e) i = read M cell missing h
    (cellAt cell c path e) e i := by
  induction path with
  | nil => intro h e _; rfl
  | cons f path ih =>
    intro h e hc
    have hlen := add_length_cons h f path
    rw [hlen, plug_cons, ih (h + 1) (f.fill e) hc.2, Frame.fill, read, hc.1, update_self]
    rfl

/-- Two paths that differ only in what concerns the hole. -/
def SameAround : List (Frame μ α) → List (Frame μ α) → Prop
  | [], [] => True
  | f :: path, f' :: path' =>
      f.offset = f'.offset ∧ (∀ o, o ≠ f.offset → f.slots o = f'.slots o) ∧
        (∀ o e, o ≠ f.offset → cell f.data o e = cell f'.data o e) ∧ SameAround path path'
  | _, _ => False

theorem SameAround.refl : ∀ path : List (Frame μ α), SameAround cell path path := by
  intro path
  induction path with
  | nil => exact trivial
  | cons f path ih => exact ⟨rfl, fun _ _ => rfl, fun _ _ _ => rfl, ih⟩

variable {cell}

theorem SameAround.length_eq : ∀ {path path' : List (Frame μ α)}, SameAround cell path path' →
    path.length = path'.length := by
  intro path
  induction path with
  | nil => intro path' h; cases path' with
    | nil => rfl
    | cons _ _ => exact h.elim
  | cons f path ih => intro path' h; cases path' with
    | nil => exact h.elim
    | cons f' path' => rw [length_cons, length_cons, ih h.2.2.2]

theorem SameAround.covers_iff : ∀ {path path' : List (Frame μ α)} {h : Nat},
    SameAround cell path path' → (Covers M h path i ↔ Covers M h path' i) := by
  intro path
  induction path with
  | nil => intro path' h hs; cases path' with
    | nil => exact Iff.rfl
    | cons _ _ => exact hs.elim
  | cons f path ih => intro path' h hs; cases path' with
    | nil => exact hs.elim
    | cons f' path' =>
      show _ ∧ _ ↔ _ ∧ _
      rw [hs.1, ih hs.2.2.2]

variable (cell)

/-- **Past the hole**, it does not matter what is in it, nor what the nodes on the way know of it. -/
theorem read_plug_other (c : γ) : ∀ {path path' : List (Frame μ α)} {h : Nat}
    (e e' : DigitTree μ α), SameAround cell path path' → ¬ Covers M h path i →
    read M cell missing (h + path.length) c (plug path e) i =
      read M cell missing (h + path.length) c (plug path' e') i := by
  intro path
  induction path with
  | nil => intro path' h e e' _ hc; exact absurd trivial hc
  | cons f path ih => intro path' h e e' hs hc; cases path' with
    | nil => exact hs.elim
    | cons f' path' =>
      obtain ⟨ho, hsl, hcell, hs'⟩ := hs
      have hlen := add_length_cons h f path
      rw [hlen, plug_cons, plug_cons]
      by_cases hup : Covers M (h + 1) path i
      · -- the way of `i` parts from the path at this frame
        have hne : digit M h i ≠ f.offset := fun hd => hc ⟨hd, hup⟩
        have hup' := hs'.covers_iff.mp hup
        rw [read_plug_covers cell missing c path (h + 1) _ hup, hs'.length_eq,
          read_plug_covers cell missing c path' (h + 1) _ hup', Frame.fill, Frame.fill, read, read,
          update_of_ne hne, update_of_ne (ho ▸ hne), hsl _ hne, hcell _ _ hne]
      · exact ih _ _ hs' hup

end Read

/-- The indices that go through the hole are those that agree with one of them above it. -/
theorem covers_iff_div {j : Nat} {path : List (Frame μ α)} : ∀ {h : Nat},
    Covers M h path i → i < M ^ (h + path.length) → j < M ^ (h + path.length) →
    (Covers M h path j ↔ j / M ^ h = i / M ^ h) := by
  induction path with
  | nil =>
    intro h _ hi hj
    rw [length_nil, Nat.add_zero] at hi hj
    rw [Nat.div_eq_of_lt hi, Nat.div_eq_of_lt hj]
    exact ⟨fun _ => rfl, fun _ => trivial⟩
  | cons f path ih =>
    intro h hc hi hj
    have hlen := add_length_cons h f path
    rw [hlen] at hi hj
    show digit M h j = f.offset ∧ Covers M (h + 1) path j ↔ _
    rw [ih hc.2 hi hj, div_pow_eq_iff h j i, hc.1]

/-! ## Shape -/

/-- What the data of a tree has to be. -/
structure Shape (μ α β : Type) where
  size : Nat
  size_pos : 0 < size
  /-- What a node keeps about its slot. -/
  about : μ → Nat → β
  /-- The data of a node of this height, given what is kept above about it and which of its slots are
      occupied. -/
  NodeOk : Nat → β → μ → (Nat → Bool) → Prop
  /-- What may be kept about a missing node. -/
  NullOk : β → Prop
  /-- What may be in a slot of a lowest node, and what may be kept about it. -/
  LeafOk : β → DigitTree μ α → Prop

variable (S : Shape μ α β)

/-- Which slots are occupied. -/
def occupied (slots : Nat → DigitTree μ α) (o : Nat) : Bool := !(slots o).isNull

/-- A tree of height `h`, with `t` kept above about it. -/
def Ok : Nat → β → DigitTree μ α → Prop
  | 0, t, e => S.LeafOk t e
  | _ + 1, t, .null => S.NullOk t
  | _ + 1, _, .item _ => False
  | h + 1, t, .node m slots =>
      S.NodeOk (h + 1) t m (occupied slots) ∧ ∀ o, o < S.size → Ok h (S.about m o) (slots o)

/-- A path whose hole is at height `h`: `t` is kept about the hole, `b` says whether it is occupied, and
    `T` is kept about the whole tree. -/
def Around : Nat → Bool → β → List (Frame μ α) → β → Prop
  | _, _, t, [], T => t = T
  | h, b, t, f :: path, T =>
      f.offset < S.size ∧ S.about f.data f.offset = t ∧
        (∀ o, o < S.size → o ≠ f.offset → Ok S h (S.about f.data o) (f.slots o)) ∧
        ∃ t', S.NodeOk (h + 1) t' f.data (update (occupied f.slots) f.offset b) ∧
          Around (h + 1) true t' path T

variable {S}

theorem occupied_update (slots : Nat → DigitTree μ α) (o : Nat) (e : DigitTree μ α) :
    occupied (update slots o e) = update (occupied slots) o (!e.isNull) := by
  funext k
  by_cases hk : k = o
  · subst hk; simp only [occupied, update_self]
  · simp only [occupied, update_of_ne hk]

variable {T : β}

/-- One level up: the node of the first frame is a tree in the hole of the rest. -/
theorem Around.pop {t : β} {f : Frame μ α} {path : List (Frame μ α)} {e : DigitTree μ α}
    (hp : Around S h (!e.isNull) t (f :: path) T) (he : Ok S h t e) :
    ∃ t', Ok S (h + 1) t' (f.fill e) ∧ Around S (h + 1) true t' path T := by
  obtain ⟨ho, ht, hrest, t', hn, hup⟩ := hp
  refine ⟨t', ⟨by rw [occupied_update]; exact hn, fun o hos => ?_⟩, hup⟩
  by_cases hoo : o = f.offset
  · subst hoo
    rw [update_self, ht]
    exact he
  · rw [update_of_ne hoo]
    exact hrest o hos hoo

/-- One level down. -/
theorem Around.push {t : β} {m : μ} {slots : Nat → DigitTree μ α} {path : List (Frame μ α)}
    (hp : Around S (h + 1) true t path T) (he : Ok S (h + 1) t (.node m slots))
    (ho : o < S.size) :
    Around S h (!(slots o).isNull) (S.about m o) (⟨m, slots, o⟩ :: path) T ∧ Ok S h (S.about m o)
    (slots o) := by
  refine ⟨⟨ho, rfl, fun k hk _ => he.2 k hk, t, ?_, hp⟩, he.2 o ho⟩
  show S.NodeOk (h + 1) t m (update (occupied slots) o (occupied slots o))
  rw [update_eq_self]
  exact he.1

/-- A sound tree in the hole of a sound path is a sound tree. -/
theorem ok_plug {path : List (Frame μ α)} : ∀ {h : Nat} {t : β} {e : DigitTree μ α},
    Around S h (!e.isNull) t path T → Ok S h t e → Ok S (h + path.length) T (plug path e) := by
  induction path with
  | nil =>
    intro h t e hp he
    obtain rfl : t = T := hp
    exact he
  | cons f path ih =>
    intro h t e hp he
    obtain ⟨t', he', hp'⟩ := hp.pop he
    have hlen := add_length_cons h f path
    rw [hlen]
    exact ih hp' he'

/-! ## Counting the slots -/

/-- How many of the slots below `n` satisfy `p`. -/
def count (n : Nat) (p : Nat → Bool) : Nat := (List.range n).countP p

theorem count_succ (n : Nat) (p : Nat → Bool) : count (n + 1) p = count n p + (p n).toNat := by
  rw [count, range_succ, countP_append, countP_singleton]
  cases p n <;> rfl

variable {p : Nat → Bool}

theorem count_congr {q : Nat → Bool} {n : Nat} : (∀ o, o < n → p o = q o) → count n p = count n q := by
  induction n with
  | zero => intro _; rfl
  | succ n ih =>
    intro h
    rw [count_succ, count_succ, ih fun o ho => h o (by omega), h n (by omega)]

theorem count_update (b : Bool) {n : Nat} :
    o < n → count n (update p o b) + (p o).toNat = count n p + b.toNat := by
  induction n with
  | zero => intro h; exact absurd h (Nat.not_lt_zero o)
  | succ n ih =>
    intro ho
    rw [count_succ, count_succ]
    by_cases hon : o = n
    · subst hon
      rw [update_self, count_congr fun k hk => update_of_ne (Nat.ne_of_lt hk) b p]
      omega
    · rw [update_of_ne (Ne.symm hon)]
      have := ih (by omega)
      omega

variable {n : Nat}

theorem count_update_true (ho : o < n) : count n (update p o true) = count n (update p o false) + 1 := by
  have h1 := count_update (p := p) true ho
  have h2 := count_update (p := p) false ho
  rw [Bool.toNat_true] at h1
  rw [Bool.toNat_false] at h2
  omega

theorem count_mono (p : Nat → Bool) (h : n ≤ k) : count n p ≤ count k p := by
  induction k with
  | zero => rw [Nat.le_zero.mp h]
  | succ k ih =>
    rcases Nat.lt_or_eq_of_le h with hlt | rfl
    · rw [count_succ]
      exact Nat.le_trans (ih (by omega)) (Nat.le_add_right _ _)
    · exact Nat.le_refl _

/-- Where nothing is counted, the count stays. -/
theorem count_eq_of_none (h : n ≤ k) (hp : ∀ o, n ≤ o → o < k → p o = false) : count k p = count n p := by
  induction k with
  | zero => rw [Nat.le_zero.mp h]
  | succ k ih =>
    rcases Nat.lt_or_eq_of_le h with hlt | rfl
    · rw [count_succ, hp k (by omega) (by omega), ih (by omega) fun o h1 h2 => hp o h1 (by omega)]
      rfl
    · rfl

theorem count_eq_zero_iff : count n p = 0 ↔ ∀ o, o < n → p o = false := by
  rw [count, countP_eq_zero]
  simp only [mem_range, Bool.not_eq_true]

end LinuxKernel.Trie
