/-
  Expansion of a priority search tree (`lib/prio_tree.c`).

  1. **Deeper trees** — a tree with `b` index bits becomes a part of a tree with `b + k` index bits if it
     is hung `k` levels deeper, all the way to the left: the additional bits of its radix indices are 0
     (`pathOf_shift`).

  2. **Stripping** — for all these levels but the first, which is for the new node, `prio_tree_expand` takes
     the root off the tree.  The nodes that have been taken form a LINE, in the order of the heap.

  3. **The end of the tree** — when the last node is taken, `prio_tree_remove` sets `index_bits` back to
     1, and the loop counts up again.
-/
import LinuxKernel.Lib.PrioTreeInsert

namespace LinuxKernel.PrioTree

open List (forall_mem_append forall_mem_singleton length_append length_replicate mem_append mem_cons mem_of_getElem? mem_singleton not_mem_nil
  replicate replicate_succ)
open LinkedTree
variable {A : Arch} {ix : Ptr → Nat × Nat} {b : Nat} {T U : Shape Ptr} {π : Path} {s : Store}

/-! ## Deeper trees -/

variable {x : Nat × Nat}

theorem dirAt_eq_false {B d : Nat} (hx : x.1 < 2 ^ b) (hd : d + b < B) : dirAt A B x d = false := by
  rw [dirAt, if_pos (by omega)]
  exact Nat.testBit_lt_two_pow (hx.trans_le (Nat.pow_le_pow_right (by omega) (by omega)))

theorem pathOf_eq_replicate {B : Nat} (hx : x.1 < 2 ^ b) :
    ∀ n, n + b ≤ B → pathOf A B x n = replicate n false := by
  intro n
  induction n with
  | zero => intro _; rfl
  | succ n ih =>
    intro hn
    rw [pathOf, ih (by omega), dirAt_eq_false hx (by omega), replicate_succ]

theorem pathOf_shift (hx : x.1 < 2 ^ b) (k : Nat) : ∀ n,
    pathOf A (b + k) x (n + k) = pathOf A b x n ++ replicate k false := by
  intro n
  induction n with
  | zero => rw [Nat.zero_add]; exact pathOf_eq_replicate hx k (by omega)
  | succ n ih =>
    have hdir : dirAt A (b + k) x (n + k) = dirAt A b x n := by
      unfold dirAt
      by_cases hn : n < b
      · rw [if_pos hn, if_pos (by omega), show b + k - 1 - (n + k) = b - 1 - n by omega]
      · rw [if_neg hn, if_neg (by omega), show n + k - (b + k) = n - b by omega]
    rw [show n + 1 + k = n + k + 1 by omega, pathOf, ih, hdir]
    rfl

theorem prioTreeMaxindex_eq {bits : Nat} (h1 : 1 ≤ bits) (h2 : bits ≤ A.bitsPerLong) :
    prioTreeMaxindex A bits = 2 ^ bits - 1 := by
  unfold prioTreeMaxindex indexBitsToMaxindex
  split
  · rw [Nat.sub_add_cancel h1]
  · rw [show bits = A.bitsPerLong by omega]

/-- The largest index of a tree, as a bound. -/
theorem gt_maxindex {bits n : Nat} (h1 : 1 ≤ bits) (h2 : bits ≤ A.bitsPerLong) :
    n > prioTreeMaxindex A bits ↔ 2 ^ bits ≤ n := by
  have := Nat.two_pow_pos bits
  rw [prioTreeMaxindex_eq h1 h2]
  omega

/-! ## Stripping -/

/-- The ends of the line. -/
def Ends (l : List Ptr) : Option Stripped → Prop
  | none => l = []
  | some c => l.head? = some c.first ∧ l.getLast? = some c.last

/-- What the loop of `prio_tree_expand` knows: the tree was `T₀`, with `b` index bits; now it is `T`, and the
    nodes `l` have been taken off. -/
structure Expanding (A : Arch) (ix : Ptr → Nat × Nat) (b : Nat) (T₀ : Shape Ptr) (maxHeapIndex : Nat)
    (s : Store)
    (T : Shape Ptr) (l : List Ptr) (c : Option Stripped) : Prop where
  stored : Stored s T
  pst : Pst A ix b T
  line : Holds s.view (line l)
  ends : Ends l c
  disjoint : ∀ x ∈ l, ¬ Mem T x
  fits : ∀ x ∈ l, Fits b (ix x)
  sorted : l.Pairwise fun x y => Above (ix x) (ix y)
  above : ∀ x ∈ l, ∀ y, Mem T y → Above (ix x) (ix y)
  mem : ∀ x, Mem T x ∨ x ∈ l ↔ Mem T₀ x
  bits : (∃ y, T [] = some y) → s.root.indexBits = b + 1 + l.length
  reached : l ≠ [] → 2 ^ (b + l.length) ≤ maxHeapIndex
  pos : 1 ≤ s.root.indexBits ∧ s.root.indexBits ≤ A.bitsPerLong

variable {T₀ : Shape Ptr} {maxHeapIndex : Nat} {l : List Ptr} {c : Option Stripped}

/-- The root of the tree is taken off, and put at the end of the line. -/
theorem Expanding.strip (h : Expanding A ix b T₀ maxHeapIndex s T l c) (hb : b ≤ A.bitsPerLong) {top : Ptr}
    (htop : T [] = some top) (hmax : 2 ^ s.root.indexBits ≤ maxHeapIndex)
    (hlt : s.root.indexBits < A.bitsPerLong) :
    ∃ s1 T1, prioTreeRemove A ix ⟨⟨s.root.prioTreeNode, s.root.indexBits + 1, s.root.raw⟩,
      s.node⟩ top = some s1 ∧
      s1.root.raw = s.root.raw ∧
      (s1.root.indexBits = s.root.indexBits + 1 ∨ (s1.root.indexBits = 1 ∧ T1 = fun _ => none)) ∧
      (c = none → Expanding A ix b T₀ maxHeapIndex (s1.initNode top) T1 (l ++ [top]) (some ⟨top, top⟩)) ∧
      (∀ c', c = some c' → Expanding A ix b T₀ maxHeapIndex
        (((s1.initNode top).setLeft c'.last top).setParent top c'.last) T1 (l ++ [top])
        (some ⟨c'.first, top⟩)) := by
  have hs : Stored ⟨⟨s.root.prioTreeNode, s.root.indexBits + 1, s.root.raw⟩, s.node⟩ T :=
    ⟨h.stored.links, h.stored.top⟩
  obtain ⟨s1, T1, heq, hrem⟩ := prioTreeRemove_removed hs h.pst hb htop
  have hbits := h.bits ⟨top, htop⟩
  have htl : top ∉ l := fun hm => h.disjoint top hm ⟨[], htop⟩
  have hlen : (l ++ [top]).length = l.length + 1 := by simp
  have htop1 : ¬ Mem T1 top := fun hm => ((hrem.mem top).mp hm).2 rfl
  -- everything that is left is below the old root
  have hbelow : ∀ y, Mem T1 y → Above (ix top) (ix y) := by
    intro y hy
    obtain ⟨⟨σ, hσ⟩, hne⟩ := (hrem.mem y).mp hy
    refine h.pst.above htop σ y ?_ (by rwa [List.append_nil])
    rintro rfl
    exact hne (Option.some.inj (hσ.symm.trans htop))
  have hline1 : Holds s1.view (LinkedTree.line l) := holds_of_node_eq h.line fun x hx =>
    hrem.frame x (h.disjoint x (mem_line.mp hx))
  have hrest : ∀ s' : Store, s'.root = s1.root → (∀ x, Mem T1 x → s'.node x = s1.node x) →
      Holds s'.view (LinkedTree.line (l ++ [top])) → ∀ c', Ends (l ++ [top]) (some c') →
      Expanding A ix b T₀ maxHeapIndex s' T1 (l ++ [top]) (some c') := by
    intro s' hroot hnode hline' c' hends
    refine ⟨⟨holds_of_node_eq hrem.stored.links hnode, hroot ▸ hrem.stored.top⟩, hrem.pst, hline', hends,
      ?_, ?_, ?_,
      ?_, fun x => ?_, ?_, ?_, ?_⟩
    · exact forall_mem_append.mpr ⟨fun x hx hm => h.disjoint x hx ((hrem.mem x).mp hm).1,
        forall_mem_singleton.mpr htop1⟩
    · exact forall_mem_append.mpr ⟨h.fits, forall_mem_singleton.mpr (h.pst.fits [] top htop)⟩
    · refine List.pairwise_append.mpr ⟨h.sorted, List.pairwise_singleton .., fun x hx y hy => ?_⟩
      exact mem_singleton.mp hy ▸ h.above x hx top ⟨[], htop⟩
    · exact forall_mem_append.mpr ⟨fun x hx y hy => h.above x hx y ((hrem.mem y).mp hy).1,
        forall_mem_singleton.mpr hbelow⟩
    · rw [← h.mem x, hrem.mem, mem_append, mem_singleton]
      constructor
      · rintro (⟨hx, _⟩ | hx | rfl)
        · exact .inl hx
        · exact .inr hx
        · exact .inl ⟨[], htop⟩
      · rintro (hx | hx)
        · by_cases e : x = top
          · exact .inr (.inr e)
          · exact .inl ⟨hx, e⟩
        · exact .inr (.inl hx)
    · rintro ⟨y, hy⟩
      rcases hrem.bits with hb' | ⟨_, he⟩
      · rw [hroot, hb', hlen]
        show s.root.indexBits + 1 = _
        omega
      · rw [he] at hy
        nomatch hy
    · intro _
      rw [hlen]
      rwa [hbits, Nat.add_right_comm] at hmax
    · rw [hroot]
      rcases hrem.bits with hb' | ⟨hb', _⟩
      · rw [hb']
        show 1 ≤ s.root.indexBits + 1 ∧ s.root.indexBits + 1 ≤ _
        omega
      · rw [hb']
        omega
  refine ⟨s1, T1, heq, hrem.raw, hrem.bits, fun hc => ?_, fun c' hc => ?_⟩
  · obtain rfl : l = [] := by rw [hc] at h; exact h.ends
    refine hrest (s1.initNode top) rfl (fun x hx => ?_) ?_ ⟨top, top⟩ ⟨rfl, rfl⟩
    · exact Function.update_of_ne (show x ≠ top from fun e => htop1 (e ▸ hx)) ..
    · rw [List.nil_append, line_singleton]
      exact single_holds
  · subst hc
    obtain ⟨hfirst, hlast⟩ := h.ends
    obtain ⟨l', rfl⟩ : ∃ l', l = l' ++ [c'.last] := List.getLast?_eq_some_iff.mp hlast
    have hlastAt : LinkedTree.line (l' ++ [c'.last]) (replicate l'.length false) = some c'.last := by
      rw [line_replicate, List.getElem?_concat_length]
    have hfree : LinkedTree.line (l' ++ [c'.last]) (false :: replicate l'.length false) = none := by
      rw [← replicate_succ, line_replicate, List.getElem?_eq_none (by simp)]
    rw [Store.setLeft_eq]
    refine hrest _ (by show ((s1.initNode top).setLink _ _ _).root = _; rw [Store.root_setLink]; rfl)
      (fun x hx => ?_) ?_ _
      ⟨?_, List.getLast?_concat⟩
    · have hxt : x ≠ top := fun e => htop1 (e ▸ hx)
      have hxl : x ≠ c'.last := fun e => h.disjoint c'.last (by simp) (e ▸ ((hrem.mem x).mp hx).1)
      refine node_ext (fun d => ?_) ?_
      · rw [Store.link_setParent, Store.link_setLink, if_neg fun e => hxl e.1, Store.link_initNode,
          if_neg hxt]
      · rw [Store.parent_setParent, if_neg hxt, Store.parent_setLink, Store.parent_initNode, if_neg hxt]
    · have := attach_holds hline1 hlastAt hfree fun hm => htl (mem_line.mp hm)
      rwa [line_concat, length_append, List.length_singleton, replicate_succ]
    · rw [List.head?_append, hfirst]
      rfl

/-- **The loop of `prio_tree_expand`** ends, with enough index bits.  The bound on its turns counts the bits
    that are missing, and once more all bits as long as the tree is not used up. -/
theorem expandLoop_expanding (hb : b ≤ A.bitsPerLong) (hmax : maxHeapIndex < 2 ^ A.bitsPerLong) (fuel : Nat) :
    ∀ (s : Store) (T : Shape Ptr) (l : List Ptr) (c : Option Stripped),
    Expanding A ix b T₀ maxHeapIndex s T l c →
    (T [] = none → A.bitsPerLong < fuel + s.root.indexBits) →
    2 * A.bitsPerLong < fuel + s.root.indexBits ∨ T [] = none →
    ∃ s' T' l' c', expandLoop A ix maxHeapIndex fuel s c = some (s', c') ∧
      Expanding A ix b T₀ maxHeapIndex s' T' l' c' ∧ maxHeapIndex < 2 ^ s'.root.indexBits ∧
      s'.root.raw = s.root.raw := by
  induction fuel with
  | zero =>
    intro s T l c h h1 h2
    have := h.pos
    rcases h2 with h2 | h2
    · omega
    · have := h1 h2
      omega
  | succ fuel ih =>
    intro s T l c h h1 h2
    unfold expandLoop
    by_cases hgt : maxHeapIndex > prioTreeMaxindex A s.root.indexBits
    · rw [if_pos hgt]
      have hge := (gt_maxindex h.pos.1 h.pos.2).mp hgt
      have hlt : s.root.indexBits < A.bitsPerLong := by
        rcases Nat.lt_or_eq_of_le h.pos.2 with hlt | e
        · exact hlt
        · rw [e] at hge
          omega
      simp only
      cases htop : T [] with
      | none =>
        have hroot : s.root.prioTreeNode = none := h.stored.top.trans htop
        rw [hroot]
        have hnext : Expanding A ix b T₀ maxHeapIndex
            { s with root := ⟨none, s.root.indexBits + 1, s.root.raw⟩ } T l c := by
          refine { h with stored := ⟨h.stored.links, htop.symm⟩, bits := fun ⟨y, hy⟩ => ?_, pos := ?_ }
          · rw [htop] at hy
            nomatch hy
          · show 1 ≤ s.root.indexBits + 1 ∧ s.root.indexBits + 1 ≤ _
            omega
        exact ih _ T l c hnext (fun _ =>
          by have := h1 htop; show _ < fuel + (s.root.indexBits + 1); omega) (.inr htop)
      | some top =>
        have hroot : s.root.prioTreeNode = some top := h.stored.top.trans htop
        obtain ⟨s1, T1, heq, hraw, hbits, hnone, hsome⟩ := h.strip hb htop hge hlt
        rw [hroot] at heq ⊢
        simp only [heq]
        have hfuel : 2 * A.bitsPerLong < fuel + 1 + s.root.indexBits := by
          rcases h2 with h2 | h2
          · exact h2
          · rw [htop] at h2
            nomatch h2
        -- the bound for what follows, whatever the store is
        have hgo1 : T1 [] = none → A.bitsPerLong < fuel + s1.root.indexBits := by
          intro _
          rcases hbits with e | ⟨e, _⟩
          · rw [e]; omega
          · rw [e]; omega
        have hgo2 : 2 * A.bitsPerLong < fuel + s1.root.indexBits ∨ T1 [] = none := by
          rcases hbits with e | ⟨_, e⟩
          · rw [e]; exact .inl (by omega)
          · exact .inr (by rw [e])
        cases c with
        | none =>
          obtain ⟨s', T', l', c', he, hx, hm, hr⟩ := ih (s1.initNode top) T1 _ _ (hnone rfl) hgo1 hgo2
          exact ⟨s', T', l', c', he, hx, hm, hr.trans hraw⟩
        | some c' =>
          obtain ⟨s', T', l', c'', he, hx, hm, hr⟩ :=
            ih (((s1.initNode top).setLeft c'.last top).setParent top c'.last) T1 _ _ (hsome c' rfl) hgo1 hgo2
          exact ⟨s', T', l', c'', he, hx, hm, hr.trans hraw⟩
    · rw [if_neg hgt]
      have hlt : ¬ 2 ^ s.root.indexBits ≤ maxHeapIndex := fun e => hgt ((gt_maxindex h.pos.1 h.pos.2).mpr e)
      exact ⟨s, T, l, c, rfl, h, by omega, rfl⟩

/-! ## The new tree -/

/-- The line, and the rest of the tree below it. -/
def expanded (node : Ptr) (l : List Ptr) (T : Shape Ptr) : Shape Ptr :=
  plug (line (node :: l)) (replicate (l.length + 1) false) T

variable {node : Ptr}

theorem expanded_cases {x : Ptr} {ρ : Path} (h : expanded node l T ρ = some x) :
    (∃ σ, ρ = σ ++ replicate (l.length + 1) false ∧ T σ = some x) ∨
      (∃ k, ρ = replicate k false ∧ (node :: l)[k]? = some x) := by
  rcases plug_cases (T := line (node :: l)) (U := T) (π := replicate (l.length + 1) false) ρ with
    ⟨σ, hσ, e⟩ | ⟨_, e⟩
  · exact .inl ⟨σ, hσ, e.symm.trans h⟩
  · exact .inr ⟨ρ.length, line_eq_some.mp (e.symm.trans h)⟩

theorem expanded_line {k : Nat} (hk : k ≤ l.length) :
    expanded node l T (replicate k false) = (node :: l)[k]? := by
  rw [expanded, plug_other, line_replicate]
  intro σ e
  have := congrArg List.length e
  rw [length_append, length_replicate, length_replicate] at this
  omega

theorem expanded_below (σ : Path) : expanded node l T (σ ++ replicate (l.length + 1) false) = T σ :=
    plug_below ..

/-- It is a priority search tree with the new number of index bits. -/
theorem Expanding.pst_expanded (h : Expanding A ix b T₀ maxHeapIndex s T l c)
    (hmax : maxHeapIndex < 2 ^ s.root.indexBits) (hfits : Fits s.root.indexBits (ix node))
    (habove : ∀ x, Mem T₀ x → Above (ix node) (ix x))
    (hclosed : ∀ c π q, expanded node l T (c :: π) = some q → ∃ p, expanded node l T π = some p) :
    Pst A ix s.root.indexBits (expanded node l T) := by
  have hbitsT : ∀ σ x, T σ = some x → s.root.indexBits = b + (l.length + 1) := by
    intro σ x hx
    have hne : T [] ≠ none := fun e => by
      rw [h.stored.links.eq_empty e] at hx
      nomatch hx
    rw [h.bits (Option.ne_none_iff_exists'.mp hne)]
    omega
  have hbitsl : l ≠ [] → b + l.length < s.root.indexBits := fun hl =>
    (Nat.pow_lt_pow_iff_right (by omega)).mp (Nat.lt_of_le_of_lt (h.reached hl) hmax)
  have hmono : ∀ x, b ≤ s.root.indexBits → Fits b x → Fits s.root.indexBits x := fun x hle hx =>
    ⟨hx.1, hx.2.trans_le (Nat.pow_le_pow_right (by omega) hle)⟩
  have hsorted : (node :: l).Pairwise fun x y => Above (ix x) (ix y) :=
    List.pairwise_cons.mpr ⟨fun x hx => habove x ((h.mem x).mp (.inr hx)), h.sorted⟩
  have hall : ∀ x ∈ node :: l, ∀ y, Mem T y → Above (ix x) (ix y) := by
    intro x hx y hy
    rcases mem_cons.mp hx with rfl | hx
    · exact habove y ((h.mem y).mp (.inl hy))
    · exact h.above x hx y hy
  refine ⟨hclosed, fun c ρ p q hp hq => ?_, fun ρ x hx => ?_, fun ρ x hx => ?_⟩
  · rcases expanded_cases hq with ⟨σ, hσ, hqT⟩ | ⟨k, hk, hqk⟩
    · cases σ with
      | nil =>
        -- the root of the old tree, below the end of the line
        rw [List.nil_append, replicate_succ, List.cons.injEq] at hσ
        rw [hσ.2, expanded_line le_rfl] at hp
        exact hall p (mem_of_getElem? hp) q ⟨_, hqT⟩
      | cons d σ =>
        obtain ⟨rfl, rfl⟩ := List.cons.inj hσ
        have hpT : T σ = some p := Eq.trans (expanded_below σ).symm hp
        exact h.pst.heap c σ p q hpT hqT
    · cases k with
      | zero => nomatch hk
      | succ k =>
        rw [replicate_succ, List.cons.injEq] at hk
        have hlt : k + 1 < (node :: l).length := (List.getElem?_eq_some_iff.mp hqk).1
        rw [List.length_cons] at hlt
        rw [hk.2, expanded_line (by omega)] at hp
        obtain ⟨hk1, rfl⟩ := List.getElem?_eq_some_iff.mp hp
        obtain ⟨hk2, rfl⟩ := List.getElem?_eq_some_iff.mp hqk
        exact List.pairwise_iff_getElem.mp hsorted k (k + 1) hk1 hk2 (Nat.lt_succ_self k)
  · rcases expanded_cases hx with ⟨σ, rfl, hxT⟩ | ⟨k, rfl, hxk⟩
    · have hx1 : (ix x).1 < 2 ^ b := Nat.lt_of_le_of_lt (h.pst.fits σ x hxT).1 (h.pst.fits σ x hxT).2
      rw [length_append, length_replicate, hbitsT σ x hxT, pathOf_shift hx1, ← h.pst.placed σ x hxT]
    · rw [length_replicate]
      cases k with
      | zero => rfl
      | succ k =>
        have hxl : x ∈ l := mem_of_getElem? hxk
        have hlt : k < l.length := (List.getElem?_eq_some_iff.mp (show l[k]? = some x from hxk)).1
        have hb := hbitsl (List.ne_nil_of_mem hxl)
        have hx1 : (ix x).1 < 2 ^ b := Nat.lt_of_le_of_lt (h.fits x hxl).1 (h.fits x hxl).2
        exact (pathOf_eq_replicate hx1 (k + 1) (by omega)).symm
  · rcases expanded_cases hx with ⟨σ, _, hxT⟩ | ⟨k, _, hxk⟩
    · exact hmono _ (by have := hbitsT σ x hxT; omega) (h.pst.fits σ x hxT)
    · cases k with
      | zero => exact Option.some.inj hxk ▸ hfits
      | succ k =>
        have hxl : x ∈ l := mem_of_getElem? hxk
        exact hmono _ (by have := hbitsl (List.ne_nil_of_mem hxl); omega) (h.fits x hxl)

theorem mem_expanded {x : Ptr} : Mem (expanded node l T) x ↔ Mem T x ∨ x ∈ l ∨ x = node := by
  constructor
  · rintro ⟨ρ, hρ⟩
    rcases expanded_cases hρ with ⟨σ, _, hσ⟩ | ⟨k, _, hk⟩
    · exact .inl ⟨σ, hσ⟩
    · rcases mem_cons.mp (mem_of_getElem? hk) with e | e
      · exact .inr (.inr e)
      · exact .inr (.inl e)
  · rintro (⟨σ, hσ⟩ | hx | rfl)
    · exact ⟨_, (expanded_below σ).trans hσ⟩
    · obtain ⟨k, hk⟩ := List.mem_iff_getElem?.mp hx
      have hlt : k < l.length := (List.getElem?_eq_some_iff.mp hk).1
      exact ⟨replicate (k + 1) false, (expanded_line hlt).trans hk⟩
    · exact ⟨replicate 0 false, expanded_line (Nat.zero_le _)⟩

/-- The new node is linked with the line, and the rest of the tree is not touched. -/
theorem expandLine_holds (h : Expanding A ix b T₀ maxHeapIndex s T l c) (hn : ¬ Mem T₀ node) :
    let out := expandLine s node c
    Holds out.1.view (line (node :: l)) ∧ Holds out.1.view T ∧
      line (node :: l) (replicate l.length false) = some out.2 ∧
      out.1.root = s.root := by
  have hnT : ¬ Mem T node := fun hm => hn ((h.mem node).mp (.inl hm))
  have hnl : node ∉ l := fun hm => hn ((h.mem node).mp (.inr hm))
  have hsingle : Holds (s.initNode node).view (single node) := single_holds
  have hl1 : Holds (s.initNode node).view (line l) := initNode_holds h.line fun hm => hnl (mem_line.mp hm)
  have hT1 : Holds (s.initNode node).view T := initNode_holds h.stored.links hnT
  cases c with
  | none =>
    obtain rfl : l = [] := h.ends
    refine ⟨?_, hT1, rfl, rfl⟩
    rw [line_singleton]
    exact hsingle
  | some c =>
    obtain ⟨hfirst, hlast⟩ := h.ends
    have hfirstAt : line l [] = some c.first := by
      rw [← hfirst]
      exact List.head?_eq_getElem?.symm
    have hfl : c.first ∈ l := List.mem_of_mem_head? hfirst
    refine ⟨?_, ?_, ?_, rfl⟩
    · rw [line_cons]
      exact join_holds hsingle hl1 (π := []) (c := false)
        (fun x ⟨ρ, hρ⟩ hxl => hnl (mem_line.mp ((single_eq_some.mp hρ).2 ▸ hxl))) rfl rfl hfirstAt
    · refine holds_of_node_eq hT1 fun x hx => node_ext (fun d => ?_) ?_
      · rw [expandLine, Store.setLeft_eq, Store.link_setParent, Store.link_setLink,
          if_neg (show ¬ (x = node ∧ d = false) from fun e => hnT (e.1 ▸ hx))]
      · rw [expandLine, Store.setLeft_eq, Store.parent_setParent,
          if_neg (show x ≠ c.first from fun e => h.disjoint _ hfl (e ▸ hx)), Store.parent_setLink]
    · obtain ⟨l', rfl⟩ := List.getLast?_eq_some_iff.mp hlast
      rw [line_replicate, length_append, List.length_singleton, List.getElem?_cons_succ,
        List.getElem?_concat_length]
      rfl

/-- Without a rest, the line is the tree. -/
theorem expanded_empty (node : Ptr) (l : List Ptr) : expanded node l (fun _ => none) = line (node :: l) := by
  funext ρ
  rw [expanded]
  rcases plug_cases (T := line (node :: l)) (U := fun _ => none) (π := replicate (l.length + 1) false) ρ with
    ⟨σ, hσ, e⟩ | ⟨_, e⟩
  · rw [e]
    cases hρ : line (node :: l) ρ with
    | none => rfl
    | some x =>
      have hlt := (List.getElem?_eq_some_iff.mp (line_eq_some.mp hρ).2).1
      rw [hσ, length_append, length_replicate, List.length_cons] at hlt
      omega
  · exact e

/-- The last writes of `prio_tree_expand` link the new node, the line and the rest of the tree. -/
theorem expandRest_stored (h : Expanding A ix b T₀ maxHeapIndex s T l c) (hn : ¬ Mem T₀ node) :
    Stored (expandRest (expandLine s node c).1 node (expandLine s node c).2) (expanded node l T) := by
  obtain ⟨hline, hT, hlast, hroot⟩ := expandLine_holds h hn
  have hdis : ∀ x, Mem (line (node :: l)) x → ¬ Mem T x := by
    intro x hx
    rcases mem_cons.mp (mem_line.mp hx) with rfl | hx
    · exact fun hm => hn ((h.mem x).mp (.inl hm))
    · exact h.disjoint x hx
  have hfree : line (node :: l) (false :: replicate l.length false) = none := by
    rw [← replicate_succ, line_replicate, List.getElem?_eq_none (by simp)]
  have htop : expanded node l T [] = some node := expanded_line (k := 0) (Nat.zero_le _)
  refine ⟨?_, htop.symm⟩
  unfold expandRest
  rw [hroot, h.stored.top]
  cases ht : T [] with
  | none =>
    rw [h.stored.links.eq_empty ht, expanded_empty]
    exact hline
  | some top =>
    have := join_holds (c := false) hline hT hdis hlast hfree ht
    exact this

/-- **`prio_tree_expand`** -/
theorem prioTreeExpand_inserted (h : Stored s T) (hT : Pst A ix s.root.indexBits T)
    (hpos : 1 ≤ s.root.indexBits) (hle : s.root.indexBits ≤ A.bitsPerLong) (hn : ¬ Mem T node)
    (hfits : Fits A.bitsPerLong (ix node)) (hcase : T [] = none ∨ 2 ^ s.root.indexBits ≤ (ix node).2) :
    ∃ b' s' T', prioTreeExpand A ix s node (ix node).2 = some (node, s') ∧ 1 ≤ b' ∧ b' ≤ A.bitsPerLong ∧
      Inserted A ix b' s s' T T' node := by
  -- the new node is above everything
  have habove : ∀ x, Mem T x → Above (ix node) (ix x) := by
    rintro x ⟨π, hπ⟩
    rcases hcase with e | e
    · rw [h.links.eq_empty e] at hπ
      cases hπ
    · exact .inl (Nat.lt_of_lt_of_le (hT.fits π x hπ).2 e)
  have hinv : ∀ bits, 1 ≤ bits → bits ≤ A.bitsPerLong → (T [] ≠ none → bits = s.root.indexBits + 1) →
      Expanding A ix s.root.indexBits T (ix node).2 ⟨⟨s.root.prioTreeNode, bits, s.root.raw⟩,
        s.node⟩ T [] none := by
    intro bits h1 h2 h3
    have hnil : line ([] : List Ptr) = fun _ => none := by
      funext ρ
      unfold line
      split <;> rfl
    exact ⟨⟨h.links, h.top⟩, hT, hnil ▸ holds_empty _, rfl, nofun, nofun, .nil, nofun,
      fun x => ⟨fun e => e.resolve_right not_mem_nil, .inl⟩,
      fun e => h3 (Option.ne_none_iff_exists'.mpr e), fun e => absurd rfl e, h1, h2⟩
  obtain ⟨bits, hbits1, hbits2, hexp, hstart⟩ : ∃ bits, 1 ≤ bits ∧ bits ≤ A.bitsPerLong ∧
      (T [] ≠ none → bits = s.root.indexBits + 1) ∧
      prioTreeExpand A ix s node (ix node).2 =
        (expandLoop A ix (ix node).2 (maxTurns A) ⟨⟨s.root.prioTreeNode, bits, s.root.raw⟩, s.node⟩ none).map
          fun r => (node, expandRest (expandLine r.1 node r.2).1 node (expandLine r.1 node r.2).2) := by
    unfold prioTreeExpand
    have hgt := gt_maxindex (n := (ix node).2) hpos hle
    by_cases hlt : 2 ^ s.root.indexBits ≤ (ix node).2
    · rw [if_pos (hgt.mpr hlt)]
      refine ⟨s.root.indexBits + 1, by omega, ?_, fun _ => rfl, rfl⟩
      rcases Nat.lt_or_eq_of_le hle with hlt' | e
      · exact hlt'
      · rw [e] at hlt
        exact absurd hfits.2 (by omega)
    · rw [if_neg fun e => hlt (hgt.mp e)]
      exact ⟨s.root.indexBits, hpos, hle, fun e => absurd (hcase.resolve_left e) hlt, rfl⟩
  obtain ⟨s', T', l, c, heq, hx, hmax, hraw⟩ := expandLoop_expanding hle hfits.2 (maxTurns A) _ T [] none
    (hinv bits hbits1 hbits2 hexp) (fun _ => by show _ < maxTurns A + bits; rw [maxTurns]; omega)
    (.inl (by show _ < maxTurns A + bits; rw [maxTurns]; omega))
  have hstored := expandRest_stored hx hn
  refine ⟨s'.root.indexBits, _, _, by rw [hstart, heq, Option.map_some], hx.pos.1, hx.pos.2, hstored,
    hx.pst_expanded hmax ⟨hfits.1, hmax⟩ habove hstored.links.closed, fun x => ?_, ?_, ?_⟩
  · rw [mem_expanded, ← hx.mem x, or_assoc]
  · show (expandRest _ _ _).root.raw = _
    rw [← show s'.root.raw = s.root.raw from hraw, ← (expandLine_holds hx hn).2.2.2]
    unfold expandRest
    cases (expandLine s' node c).1.root.prioTreeNode <;> rfl
  · show (expandRest _ _ _).root.indexBits = _
    rw [← (expandLine_holds hx hn).2.2.2]
    unfold expandRest
    cases (expandLine s' node c).1.root.prioTreeNode <;> rfl

end LinuxKernel.PrioTree
