/-
  Runs of a priority search tree (`lib/prio_tree.c`).

  1. **The state** — the tree, the links of all nodes, and the contents that the intervals are computed from.
     A node that is not in the tree belongs to the user, who may write ANYTHING to it.

  2. **The steps** — `prio_tree_insert` of a node that is not in the tree, whose interval is one
     (`radix <= heap`, over words), `prio_tree_remove` of a node that is in the tree, and writes.

  3. **The invariant** — the links form a tree, and this tree is a priority search tree for the current
     `index_bits`.

  4. **History** — such a tree is determined by its nodes, their intervals and `index_bits`.
-/
import LinuxKernel.Base.Run
import LinuxKernel.Lib.PrioTreeIter

namespace LinuxKernel.PrioTree

open Option LinkedTree

/-! ## The nodes in the tree -/

/-- The nodes that the links lead to, from the root. -/
inductive InTree (s : Store) : Ptr → Prop where
  | top (p : Ptr) : s.root.prioTreeNode = some p → InTree s p
  | left (p : Ptr) : InTree s p → s.leftEmpty p = false → InTree s (s.node p).left
  | right (p : Ptr) : InTree s p → s.rightEmpty p = false → InTree s (s.node p).right

variable {A : Arch} {ix : Ptr → Nat × Nat} {b : Nat} {T : Shape Ptr} {π : Path} {s : Store}

theorem Stored.inTree_iff (h : Stored s T) {p : Ptr} : InTree s p ↔ Mem T p := by
  constructor
  · intro hp
    induction hp with
    | top p hp => exact ⟨[], h.top.symm.trans hp⟩
    | left p _ hl ih =>
      obtain ⟨π, hπ⟩ := ih
      refine ⟨false :: π, h.mem_link hπ fun e => ?_⟩
      rw [Store.leftEmpty_iff.mpr e] at hl
      nomatch hl
    | right p _ hr ih =>
      obtain ⟨π, hπ⟩ := ih
      refine ⟨true :: π, h.mem_link hπ fun e => ?_⟩
      rw [Store.rightEmpty_iff.mpr e] at hr
      nomatch hr
  · rintro ⟨π, hπ⟩
    induction π generalizing p with
    | nil => exact .top p (h.top.trans hπ)
    | cons c π ih =>
      obtain ⟨q, hq⟩ := h.links.closed c π p hπ
      cases c with
      | false =>
        rw [← (h.left_eq hq hπ).1]
        refine .left q (ih hq) (Bool.eq_false_iff.mpr fun e => ?_)
        rw [h.leftEmpty_iff hq, hπ] at e
        nomatch e
      | true =>
        rw [← (h.right_eq hq hπ).1]
        refine .right q (ih hq) (Bool.eq_false_iff.mpr fun e => ?_)
        rw [h.rightEmpty_iff hq, hπ] at e
        nomatch e

/-! ## `prio_tree_insert` -/

/-- **`prio_tree_insert`** returns a node with the same interval if there is one, and leaves the tree as it
    is; otherwise the node is in the tree. -/
theorem prioTreeInsert_spec {node : Ptr} (h : Stored s T) (hT : Pst A ix s.root.indexBits T)
    (hpos : 1 ≤ s.root.indexBits) (hle : s.root.indexBits ≤ A.bitsPerLong) (hn : ¬ Mem T node)
    (hfits : Fits A.bitsPerLong (ix node)) :
    (∃ x, Mem T x ∧ ix x = ix node ∧ prioTreeInsert A ix s node = some (x, s)) ∨
    ∃ b' s' T', prioTreeInsert A ix s node = some (node, s') ∧ 1 ≤ b' ∧ b' ≤ A.bitsPerLong ∧
      Inserted A ix b' s s' T T' node := by
  unfold prioTreeInsert
  cases htop : T [] with
  | none =>
    rw [h.top, htop]
    exact .inr (prioTreeExpand_inserted h hT hpos hle hn hfits (.inl htop))
  | some top =>
    rw [h.top, htop]
    simp only
    by_cases hbig : (ix node).2 > prioTreeMaxindex A s.root.indexBits
    · rw [if_pos hbig]
      exact .inr (prioTreeExpand_inserted h hT hpos hle hn hfits (.inr ((gt_maxindex hpos hle).mp hbig)))
    · rw [if_neg hbig]
      rw [gt_maxindex hpos hle] at hbig
      have hwalk : Walking A ix s.root.indexBits s T node 0 s T
          ⟨top, node, (ix node).1, (ix node).2, 2 ^ (s.root.indexBits - 1), false⟩ :=
        ⟨h, hT, rfl, ⟨hfits.1, Nat.not_le.mp hbig⟩, htop, hn, nofun, .inl ⟨rfl, rfl, rfl⟩,
          fun x => Iff.rfl, rfl, rfl⟩
      rcases insertLoop_spec hle rfl (maxTurns A) s T _ 0 hwalk (Nat.pos_iff_ne_zero.mp (Nat.two_pow_pos _))
        (fun _ => ⟨by rw [maskAt, if_pos (by omega), Nat.sub_zero], (decide_eq_false (by omega)).symm⟩)
        (by rw [maxTurns]; omega) with hold | ⟨s', T', he, hins⟩
      · exact .inl hold
      · exact .inr ⟨_, s', T', he, hpos, hle, hins⟩

/-! ## Runs -/

structure State where
  store : Store
  content : Ptr → Content

/-- `get_index`, for every node. -/
def State.index (A : Arch) (s : State) (p : Ptr) : Nat × Nat :=
  getIndex A s.store.root.raw (s.content p)

/-- `INIT_PRIO_TREE_ROOT` or `INIT_RAW_PRIO_TREE_ROOT`. -/
def Initial (s : State) : Prop := s.store.root.prioTreeNode = none ∧ s.store.root.indexBits = 1

inductive Step (A : Arch) : State → State → Prop where
  | write (s : State) (p : Ptr) (n : PrioTreeNode) (c : Content) : ¬ InTree s.store p →
      Step A s ⟨⟨s.store.root, Function.update s.store.node p n⟩, Function.update s.content p c⟩
  | insert (s : State) (node res : Ptr) (st : Store) : ¬ InTree s.store node →
      (s.index A node).1 ≤ (s.index A node).2 → (s.index A node).2 < 2 ^ A.bitsPerLong →
      prioTreeInsert A (s.index A) s.store node = some (res, st) → Step A s ⟨st, s.content⟩
  | remove (s : State) (node : Ptr) (st : Store) : InTree s.store node →
      prioTreeRemove A (s.index A) s.store node = some st → Step A s ⟨st, s.content⟩

/-- The invariant. -/
structure Inv (A : Arch) (s : State) (T : Shape Ptr) : Prop where
  stored : Stored s.store T
  pst : Pst A (s.index A) s.store.root.indexBits T
  pos : 1 ≤ s.store.root.indexBits
  le : s.store.root.indexBits ≤ A.bitsPerLong

/-- The empty tree is one for any number of bits. -/
theorem pst_empty (b : Nat) : Pst A ix b fun _ => none := ⟨nofun, nofun, nofun, nofun⟩

theorem inv_init {s : State} (h : Initial s) : Inv A s fun _ => none :=
  ⟨⟨holds_empty _, h.1⟩, pst_empty _, Nat.le_of_eq h.2.symm, by rw [h.2]; have := A.wide; omega⟩

/-- Only the intervals of the nodes in the tree matter. -/
theorem Pst.congr {ix' : Ptr → Nat × Nat} (h : Pst A ix b T) (he : ∀ p, Mem T p → ix' p = ix p) :
    Pst A ix' b T := by
  refine ⟨h.closed, fun c π p q hp hq => ?_, fun π p hp => ?_, fun π p hp => ?_⟩
  · rw [he p ⟨π, hp⟩, he q ⟨_, hq⟩]
    exact h.heap c π p q hp hq
  · rw [he p ⟨π, hp⟩]
    exact h.placed π p hp
  · rw [he p ⟨π, hp⟩]
    exact h.fits π p hp

theorem index_eq_of_raw {s : State} {st : Store} (hraw : st.root.raw = s.store.root.raw) :
    State.index A ⟨st, s.content⟩ = s.index A := by
  funext p
  unfold State.index
  simp only [hraw]

/-- **The invariant is kept by every step.** -/
theorem inv_step {s s' : State} (h : ∃ T, Inv A s T) (hs : Step A s s') : ∃ T, Inv A s' T := by
  obtain ⟨T, h⟩ := h
  cases hs with
  | write p n c hp =>
    rw [h.stored.inTree_iff] at hp
    have hne : ∀ x, Mem T x → x ≠ p := fun x hx e => hp (e ▸ hx)
    refine ⟨T, ⟨holds_of_node_eq h.stored.links fun x hx => Function.update_of_ne (hne x hx) ..,
      h.stored.top⟩,
      h.pst.congr fun x hx => ?_, h.pos, h.le⟩
    unfold State.index
    simp only [Function.update_of_ne (hne x hx)]
  | insert node res st hn hle hlt he =>
    rw [h.stored.inTree_iff] at hn
    rcases prioTreeInsert_spec h.stored h.pst h.pos h.le hn ⟨hle, hlt⟩ with
      ⟨x, _, _, hx⟩ | ⟨b', s', T', hs', hb1, hb2, hins⟩
    · rw [hx] at he
      obtain ⟨rfl, rfl⟩ := Prod.mk.inj (some.inj he)
      exact ⟨T, h⟩
    · rw [hs'] at he
      obtain ⟨rfl, rfl⟩ := Prod.mk.inj (some.inj he)
      obtain rfl := hins.bits
      exact ⟨T', hins.stored, by rw [index_eq_of_raw hins.raw]; exact hins.pst, hb1, hb2⟩
  | remove node st hn he =>
    rw [h.stored.inTree_iff] at hn
    obtain ⟨π, hπ⟩ := hn
    obtain ⟨s', T', hs', hrem⟩ := prioTreeRemove_removed h.stored h.pst h.le hπ
    rw [hs'] at he
    obtain rfl := some.inj he
    have hix : State.index A ⟨s', s.content⟩ = s.index A := index_eq_of_raw hrem.raw
    rcases hrem.bits with hbits | ⟨hbits, rfl⟩
    · exact ⟨T', hrem.stored, by rw [hix, hbits]; exact hrem.pst, hbits ▸ h.pos, hbits ▸ h.le⟩
    · refine ⟨_, hrem.stored, pst_empty _, Nat.le_of_eq hbits.symm, ?_⟩
      have := A.wide
      show s'.root.indexBits ≤ A.bitsPerLong
      omega

theorem reachable_inv {s : State} (h : Run.Reachable Initial (Step A) s) : ∃ T, Inv A s T :=
  @Run.invariant_of_step _ _ _ (fun s => ∃ T, Inv A s T) (fun _ hs => ⟨_, inv_init hs⟩)
    (fun _ _ hi hs => inv_step hi hs) s h

/-! ## The result -/

/-- **Priority search trees.**  In every state that a run reaches: the links form a priority search tree
    for the current `index_bits`; no two nodes of it have the same interval; `prio_tree_insert` returns, and
    returns another node iff one with this interval is in the tree; `prio_tree_remove` returns; and for every
    query, `prio_tree_next` until `NULL` returns the nodes that overlap it, each once. -/
theorem tree_and_query (A : Arch) {s : State} (h : Run.Reachable Initial (Step A) s) :
    (∃ T, Stored s.store T ∧ Pst A (s.index A) s.store.root.indexBits T) ∧
    (∀ p q, InTree s.store p → InTree s.store q → s.index A p = s.index A q → p = q) ∧
    (∀ node, ¬ InTree s.store node → (s.index A node).1 ≤ (s.index A node).2 →
      (s.index A node).2 < 2 ^ A.bitsPerLong →
      ∃ res st, prioTreeInsert A (s.index A) s.store node = some (res, st) ∧
        ((∃ p, InTree s.store p ∧ s.index A p = s.index A node) ↔ res ≠ node) ∧
        (res ≠ node → InTree s.store res ∧ s.index A res = s.index A node ∧ st = s.store) ∧
        (res = node → ∀ p, InTree st p ↔ InTree s.store p ∨ p = node)) ∧
    (∀ node, InTree s.store node → ∃ st, prioTreeRemove A (s.index A) s.store node = some st ∧
      ∀ p, InTree st p ↔ InTree s.store p ∧ p ≠ node) ∧
    (∀ r h, ∃ l n, l.Nodup ∧ (∀ p, p ∈ l ↔ InTree s.store p ∧ Overlaps r h (s.index A p)) ∧
      ∀ fuel ≥ n, iterate A (s.index A) s.store fuel r h = some l) := by
  obtain ⟨T, hT⟩ := reachable_inv h
  have hmem : ∀ p, InTree s.store p ↔ Mem T p := fun p => hT.stored.inTree_iff
  refine ⟨⟨T, hT.stored, hT.pst⟩, fun p q hp hq he => ?_, fun node hn hle hlt => ?_, fun node hn => ?_,
    fun r h => ?_⟩
  · obtain ⟨π, hπ⟩ := (hmem p).mp hp
    obtain ⟨ρ, hρ⟩ := (hmem q).mp hq
    have := hT.pst.unique hπ hρ he
    exact some.inj (hπ.symm.trans (this ▸ hρ))
  · rw [hmem] at hn
    rcases prioTreeInsert_spec hT.stored hT.pst hT.pos hT.le hn ⟨hle, hlt⟩ with
      ⟨x, hx, hix, he⟩ | ⟨b', s', T', he, hb1, hb2, hins⟩
    · have hne : x ≠ node := fun e => hn (e ▸ hx)
      exact ⟨x, s.store, he, ⟨fun _ => hne, fun _ => ⟨x, (hmem x).mpr hx, hix⟩⟩,
        fun _ => ⟨(hmem x).mpr hx, hix, rfl⟩, fun e => absurd e hne⟩
    · refine ⟨node, s', he, ⟨?_, fun e => absurd rfl e⟩, fun e => absurd rfl e, fun _ p => ?_⟩
      · rintro ⟨p, hp, hix⟩
        obtain ⟨π, hπ⟩ := (hins.mem p).mpr (.inl ((hmem p).mp hp))
        obtain ⟨ρ, hρ⟩ := (hins.mem node).mpr (.inr rfl)
        have hsame := hins.pst.unique hπ hρ hix
        rw [hsame, hρ] at hπ
        exact absurd ((hmem p).mp hp) (some.inj hπ ▸ hn)
      · rw [hins.stored.inTree_iff, hins.mem, hmem]
  · obtain ⟨π, hπ⟩ := (hmem node).mp hn
    obtain ⟨st, T', he, hrem⟩ := prioTreeRemove_removed hT.stored hT.pst hT.le hπ
    refine ⟨st, he, fun p => ?_⟩
    rw [hrem.stored.inTree_iff, hrem.mem, hmem]
  · refine ⟨below A (s.index A) s.store.root.indexBits T r h [], queryTurns A s.store.root.indexBits, ?_,
      fun p => ?_,
      fun fuel hf => iterate_eq hT.stored hT.pst hT.pos hT.le r h hf⟩
    · exact nodup_overlapping hT.stored.links _ _
    · rw [mem_below hT.pst hT.le, hmem]
      constructor
      · rintro ⟨σ, hσ, ho⟩
        exact ⟨⟨_, hσ⟩, ho⟩
      · rintro ⟨⟨π, hπ⟩, ho⟩
        exact ⟨π, by rwa [List.append_nil], ho⟩

/-! ## The tree is determined by its nodes -/

/-- On the way to a node there are only nodes above it. -/
theorem Pst.ancestor (h : Pst A ix b T) (σ : Path) :
    ∀ p, T (σ ++ π) = some p → ∃ q, T π = some q ∧ (q = p ∨ Above (ix q) (ix p)) := by
  induction σ with
  | nil => exact fun p hp => ⟨p, hp, .inl rfl⟩
  | cons c σ ih =>
    intro p hp
    obtain ⟨y, hy⟩ := h.closed c _ p hp
    have hyp := h.heap c _ y p hy hp
    obtain ⟨q, hq, rfl | ha⟩ := ih y hy
    · exact ⟨q, hq, .inr hyp⟩
    · exact ⟨q, hq, .inr (ha.trans hyp)⟩

/-- Where a tree has `p`, a second one with `p` that agrees on shorter paths has `p` or a node above it. -/
theorem Pst.at_or_above {T' : Shape Ptr} {p : Ptr} (h : Pst A ix b T) (h' : Pst A ix b T') (hm : Mem T' p)
    (hsame : ∀ ρ : Path, ρ.length < π.length → T ρ = T' ρ) (hp : T π = some p) :
    ∃ q, T' π = some q ∧ (q = p ∨ Above (ix q) (ix p)) := by
  obtain ⟨ρ, hρ⟩ := hm
  rcases Nat.lt_or_ge ρ.length π.length with hlt | hle
  · cases h.unique hp ((hsame ρ hlt).trans hρ) rfl
    omega
  · obtain ⟨σ, hσ, _⟩ := pathOf_add (ix p) π.length (ρ.length - π.length)
    rw [Nat.sub_add_cancel hle, ← h'.placed ρ p hρ, ← h.placed π p hp] at hσ
    exact h'.ancestor σ p (hσ ▸ hρ)

/-- Two trees with the same nodes have the same node at each path. -/
theorem Pst.determined (n : Nat) :
    ∀ {T T' : Shape Ptr} {π : Path} {p : Ptr}, π.length = n → Pst A ix b T → Pst A ix b T' →
    (∀ p, Mem T p ↔ Mem T' p) → T π = some p → T' π = some p := by
  induction n using Nat.strong_induction_on with
  | _ n ih =>
    intro T T' π p hn h h' hm hp
    have hsame : ∀ ρ : Path, ρ.length < π.length → T ρ = T' ρ := fun ρ hρ => Option.ext fun x =>
      ⟨ih _ (hn ▸ hρ) rfl h h' hm, ih _ (hn ▸ hρ) rfl h' h fun p => (hm p).symm⟩
    obtain ⟨q, hq, rfl | ha⟩ := h.at_or_above h' ((hm p).mp ⟨π, hp⟩) hsame hp
    · exact hq
    -- `p` is above `q` as well, seen from the second tree
    obtain ⟨r, hr, hpq⟩ := h'.at_or_above h ((hm q).mpr ⟨π, hq⟩) (fun ρ hρ => (hsame ρ hρ).symm) hq
    obtain rfl : p = r := some.inj (hp.symm.trans hr)
    rcases hpq with rfl | hpq
    · exact hq
    · exact absurd (ha.trans hpq) Above.irrefl

/-- **History does not matter.**  Two runs that end with the same nodes in the tree, the same intervals
    for them and the same `index_bits` end with the same tree, whatever was inserted and removed on the
    way and in which order. -/
theorem history_independent (A : Arch) {s s' : State} (h : Run.Reachable Initial (Step A) s)
    (h' : Run.Reachable Initial (Step A) s') (hm : ∀ p, InTree s.store p ↔ InTree s'.store p)
    (hix : ∀ p, InTree s.store p → s.index A p = s'.index A p)
    (hb : s.store.root.indexBits = s'.store.root.indexBits) : ∃ T, Stored s.store T ∧ Stored s'.store T := by
  obtain ⟨T, hT⟩ := reachable_inv h
  obtain ⟨T', hT'⟩ := reachable_inv h'
  simp only [hT.stored.inTree_iff, hT'.stored.inTree_iff] at hm hix
  have hpst : Pst A (s.index A) s.store.root.indexBits T' := by
    rw [hb]
    exact hT'.pst.congr fun p hp => hix p ((hm p).mpr hp)
  have he : T = T' := funext fun π => Option.ext fun p =>
    ⟨Pst.determined _ rfl hT.pst hpst hm, Pst.determined _ rfl hpst hT.pst fun p => (hm p).symm⟩
  exact ⟨T, hT.stored, he ▸ hT'.stored⟩

/-! ## Sequences of insertions -/

/-- The state after the insertion of the nodes in this order, where each of them comes in. -/
def insertAll (A : Arch) : State → List Ptr → Option State
  | s, [] => some s
  | s, node :: nodes => do
    let (res, st) ← prioTreeInsert A (s.index A) s.store node
    if res = node then insertAll A ⟨st, s.content⟩ nodes else none

/-- What such a sequence leads to. -/
theorem insertAll_spec {A : Arch} (nodes : List Ptr) : ∀ {s s' : State}, Run.Reachable Initial (Step A) s →
    nodes.Nodup → (∀ p ∈ nodes, ¬ InTree s.store p ∧ Fits A.bitsPerLong (s.index A p)) →
    insertAll A s nodes = some s' → Run.Reachable Initial (Step A) s' ∧ s'.index A = s.index A ∧
      ∀ p, InTree s'.store p ↔ InTree s.store p ∨ p ∈ nodes := by
  induction nodes with
  | nil =>
    intro s s' h _ _ he
    cases he
    exact ⟨h, rfl, fun p => by simp⟩
  | cons node nodes ih =>
    intro s s' h hnodup hfit he
    obtain ⟨hnot, hrest⟩ := List.nodup_cons.mp hnodup
    obtain ⟨hn, hfits⟩ := hfit node List.mem_cons_self
    obtain ⟨⟨res, st⟩, hins, he⟩ := Option.bind_eq_some_iff.mp he
    obtain ⟨rfl, hall⟩ := (Option.ite_none_right_eq_some).mp he
    obtain ⟨T, hT⟩ := reachable_inv h
    rcases prioTreeInsert_spec hT.stored hT.pst hT.pos hT.le (mt hT.stored.inTree_iff.mpr hn) hfits with
      ⟨x, hx, _, hold⟩ | ⟨_, st', T', hnew, _, _, hI⟩
    · -- a node of the tree is not the one that came in
      obtain ⟨rfl, -⟩ := Prod.mk.inj (some.inj (hold.symm.trans hins))
      exact absurd (hT.stored.inTree_iff.mpr hx) hn
    · obtain rfl := (Prod.mk.inj (some.inj (hnew.symm.trans hins))).2
      have hix : State.index A ⟨st', s.content⟩ = s.index A := index_eq_of_raw hI.raw
      have hmem : ∀ p, InTree st' p ↔ InTree s.store p ∨ p = res := fun p => by
        rw [hI.stored.inTree_iff, hI.mem, hT.stored.inTree_iff]
      obtain ⟨hr, hix', hin⟩ := ih (h.tail (.insert _ res res st' hn hfits.1 hfits.2 hins)) hrest
        (fun p hp => ⟨fun e => ((hmem p).mp e).elim (hfit p (List.mem_cons_of_mem _ hp)).1 fun e =>
          hnot (e ▸ hp),
          hix ▸ (hfit p (List.mem_cons_of_mem _ hp)).2⟩) hall
      refine ⟨hr, hix'.trans hix, fun p => ?_⟩
      rw [hin, hmem, List.mem_cons]
      exact or_assoc

/-- Words of 32 bits. -/
def sampleArch : Arch := ⟨32, 12, by decide⟩

/-- No node is in the tree yet; node `p` has the interval `[p / 2, 3 p]`, so that 2 and 3 start together. -/
def sampleState : State := ⟨⟨⟨none, 1, false⟩, fun p => ⟨p, p, p⟩⟩, fun p => ⟨p / 2, 3 * p, 0, 0, 0⟩⟩

theorem sampleState_empty (p : Ptr) : ¬ InTree sampleState.store p := by
  intro hp
  induction hp with
  | top p hp => nomatch hp
  | left _ _ _ ih => exact ih
  | right _ _ _ ih => exact ih

theorem sampleState_insertAll {nodes : List Ptr} {s : State} (hnodup : nodes.Nodup) (hlt : ∀ p ∈ nodes, p < 8)
    (he : insertAll sampleArch sampleState nodes = some s) : Run.Reachable Initial (Step sampleArch) s ∧
      s.index sampleArch = sampleState.index sampleArch ∧ ∀ p, InTree s.store p ↔ p ∈ nodes := by
  have hfits : ∀ p : Nat, p < 8 → p / 2 ≤ 3 * p ∧ 3 * p < 2 ^ 32 := by omega
  obtain ⟨hr, hix, hin⟩ := insertAll_spec (A := sampleArch) nodes ⟨_, ⟨rfl, rfl⟩, .refl⟩ hnodup
    (fun p hp => ⟨sampleState_empty p, hfits p (hlt p hp)⟩) he
  exact ⟨hr, hix, fun p => (hin p).trans (or_iff_right (sampleState_empty p))⟩

/-- Three nodes, and two queries. -/
theorem tree_and_query_sample : ∃ s, Run.Reachable Initial (Step sampleArch) s ∧
    (∀ p, InTree s.store p ↔ p ∈ [2, 3, 4]) ∧
    ∃ n, ∀ fuel ≥ n, (∃ l, iterate sampleArch (s.index sampleArch) s.store fuel 1 1 = some l ∧
      l.Perm [2, 3]) ∧
      ∃ l, iterate sampleArch (s.index sampleArch) s.store fuel 10 20 = some l ∧ l = [4] := by
  obtain ⟨s, hs⟩ : ∃ s, insertAll sampleArch sampleState [2, 3, 4] = some s := ⟨_, rfl⟩
  obtain ⟨h, hix, hin⟩ := sampleState_insertAll (by decide) (by decide) hs
  obtain ⟨l1, n1, hnodup1, hmem1, hl1⟩ := (tree_and_query sampleArch h).2.2.2.2 1 1
  obtain ⟨l2, n2, hnodup2, hmem2, hl2⟩ := (tree_and_query sampleArch h).2.2.2.2 10 20
  refine ⟨s, h, hin, max n1 n2, fun fuel hf => ⟨⟨l1, hl1 fuel (by omega), ?_⟩, l2, hl2 fuel (by omega), ?_⟩⟩
  · refine (List.perm_ext_iff_of_nodup hnodup1 (by decide)).mpr fun p => ?_
    rw [hmem1, hin, hix]
    constructor
    · rintro ⟨hp, ho⟩
      fin_cases hp <;> revert ho <;> decide
    · intro hp
      fin_cases hp <;> decide
  · refine List.perm_singleton.mp ((List.perm_ext_iff_of_nodup hnodup2 (by decide)).mpr fun p => ?_)
    rw [hmem2, hin, hix]
    constructor
    · rintro ⟨hp, ho⟩
      fin_cases hp <;> revert ho <;> decide
    · intro hp
      fin_cases hp
      decide

/-- Two orders of insertion. -/
theorem history_independent_sample : ∃ s s' T, insertAll sampleArch sampleState [2, 3, 4] = some s ∧
    insertAll sampleArch sampleState [4, 2, 3] = some s' ∧ Stored s.store T ∧ Stored s'.store T := by
  have hbits : ∃ s s', insertAll sampleArch sampleState [2, 3, 4] = some s ∧
      insertAll sampleArch sampleState [4, 2, 3] = some s' ∧
        s.store.root.indexBits = s'.store.root.indexBits :=
    ⟨_, _, rfl, rfl, rfl⟩
  obtain ⟨s, s', hs, hs', hb⟩ := hbits
  obtain ⟨h, hix, hin⟩ := sampleState_insertAll (by decide) (by decide) hs
  obtain ⟨h', hix', hin'⟩ := sampleState_insertAll (by decide) (by decide) hs'
  obtain ⟨T, hT⟩ :=
    history_independent sampleArch h h' (fun p =>
      by rw [hin, hin']; simp only [List.mem_cons, List.not_mem_nil]; tauto)
    (fun p _ => by rw [hix, hix']) hb
  exact ⟨s, s', T, hs, hs', hT⟩

end LinuxKernel.PrioTree
