/-
  The links of a priority search tree (`lib/prio_tree.c`).

  1. **Stores** — a store holds a tree shape `T` (`Stored`): the links of the nodes of `T` are those of
     the tree, where a link to the node itself stands for nothing.

  2. **`prio_tree_replace`** puts a node in the place of another one (`prioTreeReplace_stored`).  The
     node that is replaced keeps its links: `prio_tree_remove` reads its parent afterwards.
-/
import LinuxKernel.Base.LinkedTree
import LinuxKernel.Lib.PrioTree

namespace LinuxKernel.PrioTree

open Option LinkedTree

/-! ## Links -/

/-- The left link or the right link. -/
def Store.link (s : Store) (p : Ptr) (b : Bool) : Ptr := if b then (s.node p).right else (s.node p).left

def Store.setLink (s : Store) (p : Ptr) (b : Bool) (q : Ptr) : Store :=
  if b then s.setRight p q else s.setLeft p q

namespace Store

variable {s : Store} {p q x : Ptr} {b c : Bool}

theorem link_setLink : (s.setLink p b q).link x c = if x = p ∧ c = b then q else s.link x c := by
  by_cases hx : x = p
  · subst hx
    cases b <;> cases c <;> simp [setLink, setLeft, setRight, link]
  · cases b <;> simp [setLink, setLeft, setRight, link, hx]

theorem parent_setLink : ((s.setLink p b q).node x).parent = (s.node x).parent := by
  by_cases hx : x = p
  · subst hx
    cases b <;> simp [setLink, setLeft, setRight]
  · cases b <;> simp [setLink, setLeft, setRight, hx]

theorem link_setParent : (s.setParent p q).link x c = s.link x c := by
  by_cases hx : x = p
  · subst hx
    cases c <;> simp [setParent, link]
  · simp [setParent, link, hx]

theorem parent_setParent : ((s.setParent p q).node x).parent = if x = p then q else (s.node x).parent := by
  by_cases hx : x = p
  · subst hx
    simp [setParent]
  · simp [setParent, hx]

theorem link_initNode : (s.initNode p).link x c = if x = p then p else s.link x c := by
  by_cases hx : x = p
  · subst hx
    cases c <;> simp [initNode, link]
  · simp [initNode, link, hx]

theorem parent_initNode : ((s.initNode p).node x).parent = if x = p then p else (s.node x).parent := by
  by_cases hx : x = p
  · subst hx
    simp [initNode]
  · simp [initNode, hx]

theorem root_setLink : (s.setLink p b q).root = s.root := by cases b <;> rfl
theorem setLeft_eq : s.setLeft p q = s.setLink p false q := rfl
theorem setRight_eq : s.setRight p q = s.setLink p true q := rfl
theorem leftEmpty_iff : s.leftEmpty p = true ↔ s.link p false = p := by simp [leftEmpty, link]
theorem rightEmpty_iff : s.rightEmpty p = true ↔ s.link p true = p := by simp [rightEmpty, link]
theorem isRoot_iff : s.isRoot p = true ↔ (s.node p).parent = p := by simp [isRoot]

/-- A link to the node itself stands for nothing. -/
def view (s : Store) : View Ptr where
  child p b := if s.link p b = p then none else some (s.link p b)
  parent p := if (s.node p).parent = p then none else some (s.node p).parent

theorem ite_eq_some {a : Ptr} : (if a = p then none else some a) = some q ↔ a = q ∧ q ≠ p := by
  split_ifs with h
  · exact ⟨nofun, fun e => absurd (e.1.symm.trans h) e.2⟩
  · exact ⟨fun e => ⟨some.inj e, fun hq => h ((some.inj e).trans hq)⟩, fun e => congrArg some e.1⟩

theorem child_eq_none : s.view.child p b = none ↔ s.link p b = p := by
  simp [view]

theorem child_eq_some : s.view.child p b = some q ↔ s.link p b = q ∧ q ≠ p := ite_eq_some

theorem parent_eq_none : s.view.parent p = none ↔ (s.node p).parent = p := by
  simp [view]

theorem parent_eq_some : s.view.parent p = some q ↔ (s.node p).parent = q ∧ q ≠ p := ite_eq_some

end Store

/-- The store holds the tree. -/
structure Stored (s : Store) (T : Shape Ptr) : Prop where
  links : Holds s.view T
  top : s.root.prioTreeNode = T []

section Replace
variable {s : Store} {T : Shape Ptr} {π : Path} {old node : Ptr}

/-- One side of `prio_tree_replace`: the child of `old` becomes the child of `node`. -/
def replaceSide (b : Bool) (s : Store) (old node : Ptr) : Store :=
  if s.link old b = old then s else (s.setLink node b (s.link old b)).setParent (s.link old b) node

theorem replaceLeft_eq (s : Store) (old node : Ptr) :
    replaceLeft s old node = replaceSide false s old node := by
  simp [replaceLeft, replaceSide, Store.leftEmpty, Store.link, Store.setLink]

theorem replaceRight_eq (s : Store) (old node : Ptr) :
    replaceRight s old node = replaceSide true s old node := by
  simp [replaceRight, replaceSide, Store.rightEmpty, Store.link, Store.setLink]

theorem link_replaceSide {b c : Bool} {x : Ptr} (hnode : s.link node b = node) :
    (replaceSide b s old node).link x c =
      if x = node ∧ c = b then (if s.link old b = old then node else s.link old b) else s.link x c := by
  unfold replaceSide
  split_ifs with h1 h2 h3
  · rw [h2.1, h2.2, hnode]
  · rfl
  · rw [Store.link_setParent, Store.link_setLink, if_pos h3]
  · rw [Store.link_setParent, Store.link_setLink, if_neg h3]

theorem parent_replaceSide {b : Bool} {x : Ptr} : ((replaceSide b s old node).node x).parent =
    if s.link old b ≠ old ∧ x = s.link old b then node else (s.node x).parent := by
  unfold replaceSide
  by_cases h : s.link old b = old
  · rw [if_pos h, if_neg fun e => e.1 h]
  · rw [if_neg h, Store.parent_setParent, Store.parent_setLink]
    simp only [h, not_false_eq_true, true_and, ne_eq]

/-- Both sides. -/
theorem replace_sides {s1 s3 : Store} (hs : s3 = replaceRight (replaceLeft s1 old node) old node)
    (hold : ∀ b, s1.link old b = s.link old b) (hnode : ∀ b, s1.link node b = node) (hne : old ≠ node)
    (x : Ptr) :
    (∀ d, s3.link x d =
      if x = node then (if s.link old d = old then node else s.link old d) else s1.link x d) ∧
    ((∃ b, s.link old b ≠ old ∧ x = s.link old b) → (s3.node x).parent = node) ∧
    ((∀ b, s.link old b ≠ old → x ≠ s.link old b) → (s3.node x).parent = (s1.node x).parent) := by
  subst hs
  rw [replaceLeft_eq, replaceRight_eq]
  have h1 : ∀ b, (replaceSide false s1 old node).link old b = s.link old b := by
    intro b
    rw [link_replaceSide (hnode false), if_neg fun e => hne e.1, hold]
  have h2 : (replaceSide false s1 old node).link node true = node := by
    rw [link_replaceSide (hnode false), if_neg fun e => Bool.noConfusion e.2, hnode]
  refine ⟨fun d => ?_, fun hx => ?_, fun hx => ?_⟩
  · rw [link_replaceSide h2, h1, link_replaceSide (hnode false), hold]
    cases d <;> by_cases hx : x = node <;> simp [hx]
  · rw [parent_replaceSide, parent_replaceSide, h1, hold]
    obtain ⟨b, hb, rfl⟩ := hx
    cases b with
    | true => rw [if_pos ⟨hb, rfl⟩]
    | false =>
      split_ifs with h3 h4
      · rfl
      · rfl
      · exact absurd ⟨hb, rfl⟩ h4
  · rw [parent_replaceSide, parent_replaceSide, h1, hold, if_neg fun e => hx true e.1 e.2,
      if_neg fun e => hx false e.1 e.2]

theorem root_replaceSide (b : Bool) (s : Store) (old node : Ptr) :
    (replaceSide b s old node).root = s.root := by
  unfold replaceSide
  split
  · rfl
  · exact Store.root_setLink

/-- The links of a node determine it. -/
theorem node_ext {s s' : Store} {x : Ptr} (hl : ∀ b, s'.link x b = s.link x b)
    (hp : (s'.node x).parent = (s.node x).parent) : s'.node x = s.node x := by
  have h1 : (s'.node x).left = (s.node x).left := hl false
  have h2 : (s'.node x).right = (s.node x).right := hl true
  generalize s'.node x = n' at *
  generalize s.node x = n at *
  cases n
  cases n'
  simp only at h1 h2 hp
  rw [h1, h2, hp]

theorem Stored.mem_link (h : Stored s T) (hπ : T π = some old) {b : Bool} (hb : s.link old b ≠ old) :
    T (b :: π) = some (s.link old b) := by
  rw [← h.links.child π old b hπ, Store.child_eq_some]
  exact ⟨rfl, hb⟩

/-- The link from above, with its effect on the links. -/
theorem replaceAbove_links (h : Stored s T) (hπ : T π = some old) (hn : ¬ Mem T node) :
    ∃ s1, replaceAbove (s.initNode node) old node = some s1 ∧
      s1.root = { s.root with prioTreeNode := Function.update T π (some node) [] } ∧
      (∀ b, s1.link node b = node) ∧
      (∀ x b, x ≠ node → (∀ q c ρ, π = c :: ρ → T ρ = some q → ¬ (x = q ∧ b = c)) →
        s1.link x b = s.link x b) ∧
      (∀ q c ρ, π = c :: ρ → T ρ = some q → s1.link q c = node) ∧
      (∀ x, x ≠ node → (s1.node x).parent = (s.node x).parent) ∧
      (s1.node node).parent = (up T π).getD node := by
  have hold : old ≠ node := fun e => hn (e ▸ ⟨π, hπ⟩)
  have hparent := h.links.parent π old hπ
  have hp0 : ((s.initNode node).node old).parent = (s.node old).parent := by
    rw [Store.parent_initNode, if_neg hold]
  cases π with
  | nil =>
    have hroot : (s.initNode node).isRoot old = true := by
      rw [Store.isRoot_iff, hp0]
      exact Store.parent_eq_none.mp hparent
    have htop : (s.initNode node).root.prioTreeNode = some old := h.top.trans hπ
    refine ⟨_, by rw [replaceAbove, if_pos hroot, if_pos htop], ?_, fun b => ?_, fun x b hx _ => ?_,
      nofun, fun x hx => ?_, ?_⟩
    · rw [Function.update_self]; rfl
    · show ((s.initNode node).setParent node node).link node b = node
      rw [Store.link_setParent, Store.link_initNode, if_pos rfl]
    · show ((s.initNode node).setParent node node).link x b = _
      rw [Store.link_setParent, Store.link_initNode, if_neg hx]
    · show (((s.initNode node).setParent node node).node x).parent = _
      rw [Store.parent_setParent, if_neg hx, Store.parent_initNode, if_neg hx]
    · show (((s.initNode node).setParent node node).node node).parent = _
      rw [Store.parent_setParent, if_pos rfl]; rfl
  | cons c ρ =>
    obtain ⟨q, hq⟩ := h.links.closed c ρ old hπ
    have hpq : (s.node old).parent = q ∧ q ≠ old := Store.parent_eq_some.mp (hparent.trans hq)
    have hqn : q ≠ node := fun e => hn (e ▸ ⟨ρ, hq⟩)
    have hroot : ¬ (s.initNode node).isRoot old = true := by
      rw [Store.isRoot_iff, hp0, hpq.1]
      exact hpq.2
    have hlink : ∀ b, ((s.initNode node).setParent node q).link q b = s.link q b := by
      intro b
      rw [Store.link_setParent, Store.link_initNode, if_neg hqn]
    -- `old` is the child of `q` on this side, and not on the other one
    have hside : ∀ b, s.link q b = old ↔ b = c := by
      intro b
      constructor
      · intro hb
        have := h.mem_link (b := b) hq (hb ▸ hpq.2.symm)
        rw [hb] at this
        exact (List.cons.inj (h.links.inj _ _ old this hπ)).1
      · rintro rfl
        exact (Store.child_eq_some.mp ((h.links.child ρ q b hq).trans hπ)).1
    have heq : replaceAbove (s.initNode node) old node =
        some (((s.initNode node).setParent node q).setLink q c node) := by
      have hp1 : (((s.initNode node).setParent node q).node old).parent = q := by
        rw [Store.parent_setParent, if_neg hold, hp0, hpq.1]
      rw [replaceAbove, if_neg hroot]
      simp only [hp0, hpq.1, hp1]
      have hleft : (((s.initNode node).setParent node q).node q).left = old ↔ false = c := by
        rw [← hside false, ← hlink false]
        rfl
      cases c with
      | false => rw [if_pos (hleft.mpr rfl), Store.setLeft_eq]
      | true => rw [if_neg (fun e => Bool.noConfusion (hleft.mp e)), Store.setRight_eq]
    refine ⟨_, heq, ?_, fun b => ?_, fun x b hx hne => ?_, fun q' c' ρ' e hq' => ?_, fun x hx => ?_, ?_⟩
    · rw [Store.root_setLink, Function.update_of_ne (List.cons_ne_nil _ _).symm, ← h.top]; rfl
    · rw [Store.link_setLink, if_neg fun e => hqn e.1.symm, Store.link_setParent, Store.link_initNode,
        if_pos rfl]
    · rw [Store.link_setLink, if_neg (hne q c ρ rfl hq), Store.link_setParent, Store.link_initNode, if_neg hx]
    · obtain ⟨rfl, rfl⟩ := List.cons.inj e
      obtain rfl := some.inj (hq.symm.trans hq')
      rw [Store.link_setLink, if_pos ⟨rfl, rfl⟩]
    · rw [Store.parent_setLink, Store.parent_setParent, if_neg hx, Store.parent_initNode, if_neg hx]
    · rw [Store.parent_setLink, Store.parent_setParent, if_pos rfl]
      show q = (T ρ).getD node
      rw [hq]; rfl

/-- **`prio_tree_replace`** puts `node` in the place of `old`.  The links of `old` itself, and those of the
    nodes outside of the tree, are not touched. -/
theorem prioTreeReplace_stored (h : Stored s T) (hπ : T π = some old) (hn : ¬ Mem T node) :
    ∃ s', prioTreeReplace s old node = some s' ∧ Stored s' (Function.update T π (some node)) ∧
      s'.root.indexBits = s.root.indexBits ∧ s'.root.raw = s.root.raw ∧ s'.node old = s.node old ∧
      ∀ x, ¬ Mem T x → x ≠ node → s'.node x = s.node x := by
  obtain ⟨s1, heq, hroot, hnode, hlink, hlinkq, hparent, hparentn⟩ := replaceAbove_links h hπ hn
  have hold : old ≠ node := fun e => hn (e ▸ ⟨π, hπ⟩)
  -- `old` is not its own parent
  have hup : ∀ q c ρ, π = c :: ρ → T ρ = some q → q ≠ old := by
    rintro q c ρ rfl hq rfl
    exact cons_ne_self c ρ (h.links.inj _ _ q hπ hq)
  have hlinkold : ∀ b, s1.link old b = s.link old b := fun b =>
    hlink old b hold fun q c ρ e hq he => hup q c ρ e hq he.1.symm
  obtain ⟨s3, hs3⟩ : ∃ s3, s3 = replaceRight (replaceLeft s1 old node) old node := ⟨_, rfl⟩
  have hside := replace_sides hs3 hlinkold hnode hold
  have hroot3 : s3.root = s1.root := by
    rw [hs3, replaceLeft_eq, replaceRight_eq, root_replaceSide, root_replaceSide]
  -- the children of `old` are in the tree, so they are not `node`
  have hchild : ∀ b, s.link old b ≠ old → Mem T (s.link old b) := fun b hb => ⟨_, h.mem_link hπ hb⟩
  have hchildn : ∀ b, s.link old b ≠ old → node ≠ s.link old b := fun b hb e => hn (e ▸ hchild b hb)
  refine ⟨s3, by rw [prioTreeReplace, heq, map_some, hs3], ⟨?_, ?_⟩, ?_, ?_, ?_, fun x hx hxn => ?_⟩
  · refine h.links.replace hπ hn (fun b => ?_) ?_ (fun x b hx hxo => ?_) (fun x hx hxo => ?_)
    · have hl := (hside node).1 b
      rw [if_pos rfl] at hl
      by_cases hb : s.link old b = old
      · rw [if_pos hb] at hl
        rw [Store.child_eq_none.mpr hl, Store.child_eq_none.mpr hb]
      · rw [if_neg hb] at hl
        rw [Store.child_eq_some.mpr ⟨hl, (hchildn b hb).symm⟩, Store.child_eq_some.mpr ⟨rfl, hb⟩]
    · have hp := (hside node).2.2 hchildn
      rw [hparentn] at hp
      rw [h.links.parent π old hπ]
      cases hu : up T π with
      | none =>
        rw [hu] at hp
        exact Store.parent_eq_none.mpr hp
      | some q =>
        rw [hu] at hp
        refine Store.parent_eq_some.mpr ⟨hp, fun e => hn ?_⟩
        cases π with
        | nil => nomatch hu
        | cons c ρ => exact ⟨ρ, e ▸ hu⟩
    · obtain ⟨ρ, hρ⟩ := hx
      have hxn : x ≠ node := fun e => hn (e ▸ ⟨ρ, hρ⟩)
      have hl := (hside x).1 b
      rw [if_neg hxn] at hl
      rw [h.links.child ρ x b hρ]
      by_cases he : b :: ρ = π
      · rw [hlinkq x b ρ he.symm hρ] at hl
        rw [he, hπ, map_some, rename, if_pos rfl]
        exact Store.child_eq_some.mpr ⟨hl, hxn.symm⟩
      · have hsame : (T (b :: ρ)).map (rename old node) = T (b :: ρ) :=
          map_rename fun y hy hyo => he (h.links.inj _ π old (hyo ▸ hy) hπ)
        rw [hsame, ← h.links.child ρ x b hρ]
        have hne : ∀ q c ρ', π = c :: ρ' → T ρ' = some q → ¬ (x = q ∧ b = c) := by
          rintro q c ρ' rfl hq ⟨rfl, rfl⟩
          exact he (congrArg _ (h.links.inj _ _ x hρ hq))
        rw [hlink x b hxn hne] at hl
        simp only [Store.view, hl]
    · obtain ⟨ρ, hρ⟩ := hx
      have hxn : x ≠ node := fun e => hn (e ▸ ⟨ρ, hρ⟩)
      by_cases hc : ∃ b, s.link old b ≠ old ∧ x = s.link old b
      · have hp := (hside x).2.1 hc
        obtain ⟨b, hb, rfl⟩ := hc
        obtain rfl := h.links.inj _ _ _ hρ (h.mem_link hπ hb)
        rw [h.links.parent _ _ hρ]
        show _ = (T π).map (rename old node)
        rw [hπ, map_some, rename, if_pos rfl]
        exact Store.parent_eq_some.mpr ⟨hp, hxn.symm⟩
      · have hp := (hside x).2.2 fun b hb hxb => hc ⟨b, hb, hxb⟩
        rw [hparent x hxn] at hp
        have hsame : s3.view.parent x = s.view.parent x := by simp only [Store.view, hp]
        rw [hsame, h.links.parent ρ x hρ]
        cases ρ with
        | nil => rfl
        | cons b ρ =>
          show T ρ = (T ρ).map (rename old node)
          rw [map_rename]
          rintro y hy rfl
          obtain rfl := h.links.inj _ _ y hy hπ
          have := Store.child_eq_some.mp ((h.links.child ρ y b hπ).trans hρ)
          exact hc ⟨b, this.1 ▸ this.2, this.1.symm⟩
  · rw [hroot3, hroot]
  · rw [hroot3, hroot]
  · rw [hroot3, hroot]
  · refine node_ext (fun b => ?_) ?_
    · rw [(hside old).1 b, if_neg hold, hlinkold]
    · rw [(hside old).2.2 fun b hb e => hb e.symm, hparent old hold]
  · refine node_ext (fun b => ?_) ?_
    · rw [(hside x).1 b, if_neg hxn]
      exact hlink x b hxn fun q c ρ e hq he => hx (he.1 ▸ ⟨ρ, hq⟩)
    · rw [(hside x).2.2 fun b hb e => hx (e ▸ hchild b hb), hparent x hxn]

end Replace
end LinuxKernel.PrioTree
