/-
  Insertion into a priority search tree (`lib/prio_tree.c`).

  1. **The walk** — the loop of `prio_tree_insert` goes down the path of the node in hand.  If it meets a
     node that should be below, the two are swapped; then the node in hand is one that WAS in the tree, so
     no other node has its interval any more.

  2. **Turns** — `mask` and `size_flag` are functions of the depth (`maskAt`).  At the depth at which both
     indices have been used up the two intervals are equal, so the loop ends before `mask` could be 0.

  3. **Expansion** — a tree with `b` index bits is, one level deeper, a tree with `b + 1` index bits; so for
     every bit but one the root is stripped off and put on the way down.
-/
import LinuxKernel.Lib.PrioTreeInv

namespace LinuxKernel.PrioTree

open Option Function LinkedTree
variable {A : Arch} {ix : Ptr → Nat × Nat} {b : Nat} {T : Shape Ptr} {π : Path} {s : Store}

/-! ## Masks -/

/-- The bit that is looked at in depth `d`. -/
def maskAt (A : Arch) (b d : Nat) : Nat :=
  if d < b then 2 ^ (b - 1 - d) else 2 ^ (A.bitsPerLong - 1 - (d - b))

theorem two_pow_half {n : Nat} (h : 0 < n) : 2 ^ n / 2 = 2 ^ (n - 1) ∧ 2 ^ n / 2 ≠ 0 := by
  obtain ⟨k, rfl⟩ : ∃ k, n = k + 1 := ⟨n - 1, by omega⟩
  have hpos := Nat.two_pow_pos k
  rw [Nat.pow_succ, Nat.add_sub_cancel]
  omega

theorem nextMask_maskAt {d : Nat} (hd : d + 1 < b + A.bitsPerLong) :
    nextMask A (maskAt A b d) (decide (b ≤ d)) = (maskAt A b (d + 1), decide (b ≤ d + 1)) := by
  unfold nextMask maskAt
  by_cases h1 : d + 1 < b
  · obtain ⟨e, hne⟩ := two_pow_half (show 0 < b - 1 - d by omega)
    rw [if_pos (show d < b by omega), if_neg hne, if_pos h1, e, show b - 1 - d - 1 = b - 1 - (d + 1) by omega,
      decide_eq_false (by omega), decide_eq_false (by omega)]
  · by_cases h2 : d < b
    · rw [if_pos h2, show b - 1 - d = 0 by omega, if_pos (by decide), if_neg h1,
        show d + 1 - b = 0 by omega, Nat.sub_zero, decide_eq_true (by omega)]
    · obtain ⟨e, hne⟩ := two_pow_half (show 0 < A.bitsPerLong - 1 - (d - b) by omega)
      rw [if_neg h2, if_neg hne, if_neg h1, e,
        show A.bitsPerLong - 1 - (d - b) - 1 = A.bitsPerLong - 1 - (d + 1 - b) by omega,
        decide_eq_true (by omega), decide_eq_true (by omega)]

theorem nextMask_ne_zero (mask : Nat) (flag : Bool) : (nextMask A mask flag).1 ≠ 0 := by
  unfold nextMask
  split
  · exact Nat.ne_of_gt (Nat.two_pow_pos _)
  · assumption

theorem and_two_pow_ne_zero (x i : Nat) : x &&& 2 ^ i ≠ 0 ↔ x.testBit i = true := by
  rw [Nat.and_two_pow]
  cases x.testBit i <;> simp

/-- The test of the loop is the turn of the path. -/
theorem turn_iff {x : Nat × Nat} {d : Nat} (hb : b ≤ A.bitsPerLong) (hx : Fits b x) :
    (if decide (b ≤ d) = true then A.sub x.2 x.1 else x.1) &&& maskAt A b d ≠ 0 ↔ dirAt A b x d = true := by
  have hpow : 2 ^ b ≤ 2 ^ A.bitsPerLong := Nat.pow_le_pow_right (by omega) hb
  have hsub : A.sub x.2 x.1 = x.2 - x.1 := by
    have := hx.1
    have := hx.2
    rw [Arch.sub, show x.2 + (2 ^ A.bitsPerLong - x.1) = x.2 - x.1 + 2 ^ A.bitsPerLong by omega,
      Nat.add_mod_right, Nat.mod_eq_of_lt (by omega)]
  unfold maskAt dirAt
  by_cases hd : d < b
  · rw [if_pos hd, if_pos hd, if_neg (by simpa using hd), and_two_pow_ne_zero]
  · rw [if_neg hd, if_neg hd, if_pos (by simpa using hd), hsub, and_two_pow_ne_zero]

/-! ## The walk -/

/-- What the loop knows at depth `d`, if the tree was `T₀` in the store `s₀` and `res` is inserted. -/
structure Walking (A : Arch) (ix : Ptr → Nat × Nat) (b : Nat) (s₀ : Store) (T₀ : Shape Ptr) (res : Ptr)
    (d : Nat)
    (s : Store) (T : Shape Ptr) (i : Insertion) : Prop where
  stored : Stored s T
  pst : Pst A ix b T
  index : (ix i.node) = (i.radixIndex, i.heapIndex)
  fits : Fits b (ix i.node)
  cur : T (pathOf A b (ix i.node) d) = some i.cur
  absent : ¬ Mem T i.node
  above : ∀ y, up T (pathOf A b (ix i.node) d) = some y → Above (ix y) (ix i.node)
  fresh : (i.node = res ∧ s = s₀ ∧ T = T₀) ∨ ∀ x, Mem T x → ix x ≠ ix i.node
  mem : ∀ x, Mem T x ∨ x = i.node ↔ Mem T₀ x ∨ x = res
  root : s.root.indexBits = s₀.root.indexBits ∧ s.root.raw = s₀.root.raw

variable {s₀ : Store} {T₀ : Shape Ptr} {res : Ptr} {d : Nat} {i : Insertion}

/-- The depth is bounded, and at the bound the intervals are equal. -/
theorem Walking.depth (h : Walking A ix b s₀ T₀ res d s T i) (hb : b ≤ A.bitsPerLong)
    (hne : ix i.cur ≠ ix i.node) : d < b + A.bitsPerLong := by
  have hle := h.pst.length_le hb h.cur
  rw [length_pathOf] at hle
  refine Nat.lt_of_le_of_ne hle fun e => hne ?_
  have hplaced := h.pst.placed _ i.cur h.cur
  rw [length_pathOf, e] at hplaced
  exact (index_eq hb h.fits (h.pst.fits _ i.cur h.cur) hplaced).symm

/-- **The swap**: afterwards the node at this depth is above the node in hand. -/
theorem insertSwap_walking (h : Walking A ix b s₀ T₀ res d s T i) (hne : ix i.cur ≠ ix i.node) :
    ∃ s' T' i', insertSwap ix s i = some (s', i') ∧ Walking A ix b s₀ T₀ res d s' T' i' ∧
      Above (ix i'.cur) (ix i'.node) ∧ i'.mask = i.mask ∧ i'.sizeFlag = i.sizeFlag := by
  unfold insertSwap
  simp only
  have hidx := h.index
  split
  · rename_i hswap
    have habove : Above (ix i.node) (ix i.cur) := by
      rw [hidx]
      rcases hswap with hlt | ⟨he, hlt⟩
      · exact .inl hlt
      · exact .inr ⟨he, hlt⟩
    obtain ⟨s', heq, hs', hbits, hraw, _, _⟩ := prioTreeReplace_stored h.stored h.cur h.absent
    rw [heq, Option.map_some]
    have hplaced := h.pst.placed _ i.cur h.cur
    rw [length_pathOf] at hplaced
    have hT' : Pst A ix b (update T (pathOf A b (ix i.node) d) (some i.node)) := by
      refine h.pst.put ?_ (by rw [length_pathOf]) h.fits h.above fun c y hy =>
        habove.trans (h.pst.heap c _ _ y h.cur hy)
      cases hd : pathOf A b (ix i.node) d with
      | nil => exact .inl rfl
      | cons c ρ => exact .inr (h.pst.closed c ρ i.cur (hd ▸ h.cur))
    have hmem : ∀ x, Mem (update T (pathOf A b (ix i.node) d) (some i.node)) x ↔
        (Mem T x ∧ x ≠ i.cur) ∨ x = i.node := by
      intro x
      constructor
      · rintro ⟨σ, hσ⟩
        by_cases e : σ = pathOf A b (ix i.node) d
        · rw [e, update_self] at hσ
          exact .inr (some.inj hσ).symm
        · rw [update_of_ne e] at hσ
          exact .inl ⟨⟨σ, hσ⟩, fun hx => e (h.stored.links.inj σ _ i.cur (hx ▸ hσ) h.cur)⟩
      · rintro (⟨⟨σ, hσ⟩, hx⟩ | rfl)
        · have e : σ ≠ pathOf A b (ix i.node) d := fun e => hx (some.inj (hσ.symm.trans (e ▸ h.cur)))
          exact ⟨σ, by rw [update_of_ne e, hσ]⟩
        · exact ⟨_, update_self ..⟩
    refine ⟨s', _, _, rfl, ⟨hs', hT', rfl, h.pst.fits _ i.cur h.cur, ?_, ?_, ?_, .inr ?_, ?_,
      hbits.trans h.root.1, hraw.trans h.root.2⟩, habove, rfl, rfl⟩
    · show update T _ _ (pathOf A b (ix i.cur) d) = some i.node
      rw [← hplaced, update_self]
    · intro hm
      rcases (hmem i.cur).mp hm with ⟨_, hc⟩ | hc
      · exact hc rfl
      · exact h.absent (hc ▸ ⟨_, h.cur⟩)
    · intro y hy
      rw [← hplaced] at hy
      cases hd : pathOf A b (ix i.node) d with
      | nil => rw [hd] at hy; nomatch hy
      | cons c ρ =>
        rw [hd] at hy
        change update T _ _ ρ = some y at hy
        rw [update_of_ne (cons_ne_self c ρ).symm] at hy
        exact h.pst.heap c ρ y i.cur hy (hd ▸ h.cur)
    · intro x hx
      rcases (hmem x).mp hx with ⟨⟨σ, hσ⟩, hxc⟩ | rfl
      · intro he
        have := h.pst.unique hσ h.cur he
        exact hxc (some.inj (hσ.symm.trans (this ▸ h.cur)))
      · exact hne.symm
    · intro x
      rw [← h.mem x, hmem]
      show _ ∨ x = i.cur ↔ _
      constructor
      · rintro ((⟨hx, _⟩ | rfl) | rfl)
        · exact .inl hx
        · exact .inr rfl
        · exact .inl ⟨_, h.cur⟩
      · rintro (hx | rfl)
        · by_cases e : x = i.cur
          · exact .inr e
          · exact .inl (.inl ⟨hx, e⟩)
        · exact .inl (.inr rfl)
  · rename_i hswap
    refine ⟨s, T, i, rfl, h, ?_, rfl, rfl⟩
    have hnot : ¬ Above (ix i.node) (ix i.cur) := by
      rw [hidx]
      exact hswap
    exact (above_total hnot).resolve_right hne

/-- A tree is hung below a node. -/
theorem join_holds {U : Shape Ptr} {p q : Ptr} {c : Bool} (h : Holds s.view T) (hU : Holds s.view U)
    (hdis : ∀ x, Mem T x → ¬ Mem U x) (hp : T π = some p) (hc : T (c :: π) = none) (hq : U [] = some q) :
    Holds ((s.setLink p c q).setParent q p).view (plug T (c :: π) U) := by
  have hpq : p ≠ q := fun e => hdis p ⟨π, hp⟩ (e ▸ ⟨[], hq⟩)
  refine h.join hU hdis hp hc hq ?_ ?_ (fun x d hx => ?_) (fun x hx => ?_)
  · rw [Store.child_eq_some, Store.link_setParent, Store.link_setLink, if_pos ⟨rfl, rfl⟩]
    exact ⟨rfl, hpq.symm⟩
  · rw [Store.parent_eq_some, Store.parent_setParent, if_pos rfl]
    exact ⟨rfl, hpq⟩
  · simp only [Store.view, Store.link_setParent, Store.link_setLink, if_neg hx]
  · simp only [Store.view, Store.parent_setParent, Store.parent_setLink, if_neg hx]

/-- Only the links of the nodes of the tree matter. -/
theorem holds_of_node_eq {s s' : Store} (h : Holds s.view T) (hs : ∀ x, Mem T x → s'.node x = s.node x) :
    Holds s'.view T := by
  refine h.congr (fun x hx => ?_) (fun x hx => ?_)
  · funext d
    have hlink : s'.link x d = s.link x d := by simp only [Store.link, hs x hx]
    simp only [Store.view, hlink]
  · simp only [Store.view, hs x hx]

theorem initNode_holds {node : Ptr} (h : Holds s.view T) (hn : ¬ Mem T node) :
    Holds (s.initNode node).view T :=
  holds_of_node_eq h fun x hx => update_of_ne (show x ≠ node from fun e => hn (e ▸ hx)) ..

theorem single_holds {node : Ptr} : Holds (s.initNode node).view (single node) := by
  refine holds_single (fun d => ?_) ?_
  · rw [Store.child_eq_none, Store.link_initNode, if_pos rfl]
  · rw [Store.parent_eq_none, Store.parent_initNode, if_pos rfl]

/-- A node becomes a leaf. -/
theorem attach_holds {p node : Ptr} {c : Bool} (h : Holds s.view T) (hp : T π = some p)
    (hc : T (c :: π) = none)
    (hn : ¬ Mem T node) : Holds (((s.initNode node).setLink p c node).setParent node p).view
      (update T (c :: π) (some node)) := by
  rw [← h.plug_single hc]
  refine join_holds (initNode_holds h hn) single_holds (fun x hx ⟨σ, hσ⟩ => ?_) hp hc rfl
  exact hn ((single_eq_some.mp hσ).2 ▸ hx)

theorem attach_stored {p node : Ptr} {c : Bool} (h : Stored s T) (hp : T π = some p) (hc : T (c :: π) = none)
    (hn : ¬ Mem T node) : Stored (((s.initNode node).setLink p c node).setParent node p)
      (update T (c :: π) (some node)) := by
  refine ⟨attach_holds h.links hp hc hn, ?_⟩
  show ((s.initNode node).setLink p c node).root.prioTreeNode = _
  rw [Store.root_setLink, update_of_ne (List.cons_ne_nil _ _).symm]
  exact h.top

/-- The node is in the tree now; `b` is the number of index bits of the new tree. -/
structure Inserted (A : Arch) (ix : Ptr → Nat × Nat) (b : Nat) (s s' : Store) (T T' : Shape Ptr)
    (node : Ptr) :
    Prop where
  stored : Stored s' T'
  pst : Pst A ix b T'
  mem : ∀ x, Mem T' x ↔ Mem T x ∨ x = node
  raw : s'.root.raw = s.root.raw
  bits : s'.root.indexBits = b

/-- A turn to the side `c`, with the node at this depth above the node in hand. -/
theorem Walking.attach (h : Walking A ix b s₀ T₀ res d s T i) (hbits : s₀.root.indexBits = b)
    (habove : Above (ix i.cur) (ix i.node)) {c : Bool} (hdir : dirAt A b (ix i.node) d = c)
    (hc : T (c :: pathOf A b (ix i.node) d) = none) :
    Inserted A ix b s₀ (((s.initNode i.node).setLink i.cur c i.node).setParent i.node i.cur) T₀
      (update T (c :: pathOf A b (ix i.node) d) (some i.node)) res := by
  refine ⟨attach_stored h.stored h.cur hc h.absent, h.pst.put (.inr ⟨i.cur, h.cur⟩) ?_ h.fits (fun y hy => ?_)
    (fun c' y hy => ?_), fun x => ?_, ?_, ?_⟩
  · rw [List.length_cons, length_pathOf, pathOf, hdir]
  · exact some.inj (h.cur.symm.trans hy) ▸ habove
  · rw [h.stored.links.none_below hc] at hy
    cases hy
  · rw [← h.mem x]
    constructor
    · rintro ⟨σ, hσ⟩
      by_cases e : σ = c :: pathOf A b (ix i.node) d
      · rw [e, update_self] at hσ
        exact .inr (some.inj hσ).symm
      · rw [update_of_ne e] at hσ
        exact .inl ⟨σ, hσ⟩
    · rintro (⟨σ, hσ⟩ | rfl)
      · have e : σ ≠ c :: pathOf A b (ix i.node) d := by
          rintro rfl
          rw [hc] at hσ
          cases hσ
        exact ⟨σ, by rw [update_of_ne e, hσ]⟩
      · exact ⟨_, update_self ..⟩
  · show ((s.initNode i.node).setLink i.cur c i.node).root.raw = _
    rw [Store.root_setLink]
    exact h.root.2
  · show ((s.initNode i.node).setLink i.cur c i.node).root.indexBits = _
    rw [Store.root_setLink]
    exact h.root.1.trans hbits

theorem Walking.down (h : Walking A ix b s₀ T₀ res d s T i) (habove : Above (ix i.cur) (ix i.node)) {c : Bool}
    (hdir : dirAt A b (ix i.node) d = c) {next : Ptr} (hc : T (c :: pathOf A b (ix i.node) d) = some next)
    (mask : Nat) (flag : Bool) :
    Walking A ix b s₀ T₀ res (d + 1) s T { i with cur := next, mask := mask, sizeFlag := flag } := by
  refine { h with cur := ?_, above := fun y hy => ?_ }
  · show T (dirAt A b (ix i.node) d :: _) = some next
    rw [hdir, hc]
  · exact some.inj (h.cur.symm.trans hy) ▸ habove

/-- **The loop of `prio_tree_insert`** finds the interval, or inserts the node. -/
theorem insertLoop_spec (hb : b ≤ A.bitsPerLong) (hbits : s₀.root.indexBits = b) (fuel : Nat) :
    ∀ (s : Store) (T : Shape Ptr) (i : Insertion) (d : Nat), Walking A ix b s₀ T₀ res d s T i →
    i.mask ≠ 0 → (d < b + A.bitsPerLong → i.mask = maskAt A b d ∧ i.sizeFlag = decide (b ≤ d)) →
    b + A.bitsPerLong < d + fuel →
    (∃ x, Mem T₀ x ∧ ix x = ix res ∧ insertLoop A ix res fuel s i = some (x, s₀)) ∨
      ∃ s' T', insertLoop A ix res fuel s i = some (res, s') ∧ Inserted A ix b s₀ s' T₀ T' res := by
  induction fuel with
  | zero =>
    intro s T i d h _ _ hf
    have := h.pst.length_le hb h.cur
    rw [length_pathOf] at this
    omega
  | succ fuel ih =>
    intro s T i d h hm hmask hf
    unfold insertLoop
    rw [if_neg hm]
    by_cases heq : ix i.cur = ix i.node
    · -- an equal interval: nothing has been swapped
      rcases h.fresh with ⟨hres, rfl, rfl⟩ | hfresh
      · rw [if_pos (by rw [heq, h.index]; exact ⟨rfl, rfl⟩)]
        exact .inl ⟨i.cur, ⟨_, h.cur⟩, hres ▸ heq, rfl⟩
      · exact absurd heq (hfresh i.cur ⟨_, h.cur⟩)
    · have hlt := h.depth hb heq
      obtain ⟨hmaskd, hflag⟩ := hmask hlt
      have hne : ¬ ((ix i.cur).1 = i.radixIndex ∧ (ix i.cur).2 = i.heapIndex) := fun e =>
        heq (by rw [h.index]; exact Prod.ext e.1 e.2)
      obtain ⟨s', T', i', hswap, h', habove, hm', hf'⟩ := insertSwap_walking h heq
      rw [if_neg hne, hswap]
      simp only
      have hturn := turn_iff (d := d) hb h'.fits
      rw [h'.index] at hturn
      have hmask' : d + 1 < b + A.bitsPerLong → (nextMask A i'.mask i'.sizeFlag).1 = maskAt A b (d + 1) ∧
            (nextMask A i'.mask i'.sizeFlag).2 = decide (b ≤ d + 1) := by
        intro hd
        rw [hm', hf', hmaskd, hflag, nextMask_maskAt hd]
        exact ⟨rfl, rfl⟩
      have hnz := nextMask_ne_zero (A := A) i'.mask i'.sizeFlag
      rw [hm', hf', hmaskd, hflag] at *
      by_cases hdir : dirAt A b (ix i'.node) d = true
      · rw [if_pos (hturn.mpr (h'.index ▸ hdir))]
        have hre := h'.stored.rightEmpty_iff h'.cur
        cases hc : T' (true :: pathOf A b (ix i'.node) d) with
        | none =>
          rw [if_pos (hre.mpr hc), Store.setRight_eq]
          exact .inr ⟨_, _, rfl, h'.attach hbits habove hdir hc⟩
        | some next =>
          rw [if_neg (fun e => by rw [hre.mp e] at hc; nomatch hc), (h'.stored.right_eq h'.cur hc).1]
          exact ih s' T' _ (d + 1) (h'.down habove hdir hc _ _) hnz hmask' (by omega)
      · have hdir' : dirAt A b (ix i'.node) d = false := Bool.eq_false_of_not_eq_true hdir
        rw [if_neg (fun e => hdir (h'.index ▸ hturn.mp e))]
        have hle := h'.stored.leftEmpty_iff h'.cur
        cases hc : T' (false :: pathOf A b (ix i'.node) d) with
        | none =>
          rw [if_pos (hle.mpr hc), Store.setLeft_eq]
          exact .inr ⟨_, _, rfl, h'.attach hbits habove hdir' hc⟩
        | some next =>
          rw [if_neg (fun e => by rw [hle.mp e] at hc; nomatch hc), (h'.stored.left_eq h'.cur hc).1]
          exact ih s' T' _ (d + 1) (h'.down habove hdir' hc _ _) hnz hmask' (by omega)

end LinuxKernel.PrioTree
